import FastGate.Go.Unmarshal
import FastGate.ModelTurn.Parse
import FastGate.ModelTurn.Retention
import FastGate.ModelTurn.Request
import FastGate.Agreement.Session
import FastGate.Provider.Fake
import FastGate.CheckContract.StrictJson
import FastGate.Agreement.Documents
import FastGate.Service.Process
import FastGate.CheckContract.Exact
import FastGate.CheckContract.Frozen
import FastGate.CheckContract.Sound
import FastGate.CheckContract.Masking
import FastGate.Python.Sorted
import FastGate.Python.Dumps
import FastGate.CheckRepository.Sections
import FastGate.CheckRepository.Fences
import FastGate.ModelTurnHttp.Gate
import FastGate.ModelTurnHttp.MediaType
import FastGate.CheckContract.Raising
import FastGate.CheckContract.Licensed
import FastGate.CheckRepository.Policy
import FastGate.CheckRepository.Files
import FastGate.CheckRepository.Learning
import FastGate.CheckRepository.Links
