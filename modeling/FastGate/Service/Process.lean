/-
# FastGate.Service.Process — from the command line to the listener

`run` of `cmd/fastgate` parses its arguments into the default configuration, builds the service, opens
one listener and serves on it.  The `flag` package is modelled for a set with the one string flag that
`run` defines; what it prints is not.

* `parseFlags_iff` says which command lines are accepted: those that spell `listen` flags and nothing
  else, in any of the ways the package knows, and perhaps a terminating `--`.  The last value counts.
* `trimSpace_eq_self` says which addresses have no white space around them, and `newService_default`
  which are accepted with the default settings.
* `run_startup` says what becomes of every command line: nothing is listened on unless both hold.

An argument that is no flag ends the flags, and `run` refuses it; so does `-` alone.  Opening the listener
may fail in any way, which is a parameter.
-/
import FastGate.Go.Strings
import FastGate.Provider.Provider
import FastGate.Service.Progress

open FastGate.Utf8 (Bytes encodeChar)
open FastGate.Go
open FastGate.Provider (goString)

namespace FastGate.Service

/-! ## The configuration -/

/-- Durations are in nanoseconds. -/
structure Config where
  listenAddress : Bytes
  readHeaderTimeout : Int
  readTimeout : Int
  writeTimeout : Int
  idleTimeout : Int
  shutdownTimeout : Int
  maxHeaderBytes : Int
  deriving DecidableEq, Repr

/-- The length of a listen address at most. -/
def maximumAddressLength : Nat := 255

/-- The largest limit on headers that may be configured: one mebibyte. -/
def maximumMaxHeaderBytes : Int := 1048576

/-- The limit on headers of the default settings. -/
def defaultMaxHeaderBytes : Int := 16384

/-- `time.Second` -/
def second : Int := 1000000000

/-- How long a shutdown waits for open requests by default. -/
def defaultShutdownTimeout : Int := 5 * second

/-- `DefaultConfig`, which `run` starts from. -/
def defaultConfig : Config where
  listenAddress := goString "127.0.0.1:8080"
  readHeaderTimeout := 5 * second
  readTimeout := 10 * second
  writeTimeout := 10 * second
  idleTimeout := 60 * second
  shutdownTimeout := defaultShutdownTimeout
  maxHeaderBytes := defaultMaxHeaderBytes

/-- The timeouts under the names that their errors give them, in the order of the checks. -/
def Config.timeouts (config : Config) : List (String × Int) :=
  [("read header timeout", config.readHeaderTimeout), ("read timeout", config.readTimeout),
    ("write timeout", config.writeTimeout), ("idle timeout", config.idleTimeout),
    ("shutdown timeout", config.shutdownTimeout)]

/-- `validateConfig`: the first error in the order of the fields. -/
def validateConfig (config : Config) : Option String :=
  if config.listenAddress = [] then some "listen address is required"
  else if trimSpace config.listenAddress ≠ config.listenAddress then
    some "listen address must not contain surrounding whitespace"
  else if config.listenAddress.length > maximumAddressLength then
    some ("listen address exceeds " ++ toString maximumAddressLength ++ " bytes")
  else
    match config.timeouts.find? fun timeout => timeout.2 ≤ 0 with
    | some timeout => some (timeout.1 ++ " must be positive")
    | none =>
      if config.maxHeaderBytes ≤ 0 then some "maximum header bytes must be positive"
      else if config.maxHeaderBytes > maximumMaxHeaderBytes then
        some ("maximum header bytes exceeds " ++ toString maximumMaxHeaderBytes)
      else none

/-- `New`; a service is its settings. -/
def newService (config : Config) : Except String Config :=
  match validateConfig config with
  | some err => .error err
  | none => .ok config

/-! ## The command line -/

/-- How `flag.FlagSet` reads an argument: one dash or two, a name, and a value behind `=`. -/
inductive Argument where
  | positional
  | terminator
  | malformed
  | flag (name : Bytes) (value : Option Bytes)
  deriving DecidableEq, Repr

/-- A name up to the first `=`, and what is behind it. -/
def splitValue : Bytes → Bytes × Option Bytes
  | [] => ([], none)
  | b :: rest =>
    if b = 0x3D then ([], some rest)
    else
      let (name, value) := splitValue rest
      (b :: name, value)

/-- What is behind the dashes; the first byte of a name is neither a dash nor `=`. -/
def readName : Bytes → Argument
  | [] => .malformed
  | b :: rest =>
    if b = 0x2D ∨ b = 0x3D then .malformed
    else .flag (splitValue (b :: rest)).1 (splitValue (b :: rest)).2

/-- One argument; a single dash is no flag. -/
def readArgument : Bytes → Argument
  | 0x2D :: 0x2D :: [] => .terminator
  | 0x2D :: 0x2D :: name => readName name
  | 0x2D :: b :: name => readName (b :: name)
  | _ => .positional

/-- `flags.Parse`: the address of the last `listen` flag and the arguments that are left. -/
def parseFlags : List Bytes → Bytes → Except Bytes (Bytes × List Bytes)
  | [], address => .ok (address, [])
  | argument :: arguments, address =>
    match readArgument argument with
    | .positional => .ok (address, argument :: arguments)
    | .terminator => .ok (address, arguments)
    | .malformed => .error (goString "bad flag syntax: " ++ argument)
    | .flag name value =>
      if name ≠ goString "listen" then
        if name = goString "help" ∨ name = goString "h" then .error (goString "flag: help requested")
        else .error (goString "flag provided but not defined: -" ++ name)
      else
        match value with
        | some value => parseFlags arguments value
        | none =>
          match arguments with
          | [] => .error (goString "flag needs an argument: -" ++ name)
          | value :: arguments => parseFlags arguments value

/-! ## The process -/

/-- The errors of `run` before it serves. -/
inductive StartupError (ε : Type) where
  | text (message : Bytes)
  | listen (err : ε)

/-- The addresses that were listened on, and the call of `Service.Serve` that follows or the error in its
place. -/
structure Startup (ε : Type) where
  listened : List Bytes
  outcome : Except (StartupError ε) (State ε)

/-- `run`, where `listen` opens a listener or fails, and `canceled` says whether the process was
interrupted already. -/
def run {ε : Type} (listen : Bytes → Option ε) (canceled : Bool) (arguments : List Bytes) : Startup ε :=
  match parseFlags arguments defaultConfig.listenAddress with
  | .error err => ⟨[], .error (.text (goString "parse startup configuration: " ++ err))⟩
  | .ok (listenAddress, rest) =>
    if rest.length ≠ 0 then
      ⟨[], .error (.text (goString "parse startup configuration: unexpected positional arguments"))⟩
    else
      let config := { defaultConfig with listenAddress := listenAddress }
      match newService config with
      | .error err => ⟨[], .error (.text (goString "validate startup configuration: " ++ goString err))⟩
      | .ok _ =>
        match listen config.listenAddress with
        | some err => ⟨[config.listenAddress], .error (.listen err)⟩
        | none => ⟨[config.listenAddress], .ok (start (some canceled) true)⟩

/-! ## Accepted command lines -/

theorem splitValue_sound (s : Bytes) :
    s = (splitValue s).1 ++ (splitValue s).2.elim [] (0x3D :: ·) := by
  induction s with
  | nil => rfl
  | cons b rest ih =>
    unfold splitValue
    split
    · rename_i hb
      rw [hb]
      rfl
    · exact congrArg (b :: ·) ih

theorem splitValue_append {name : Bytes} (hname : 0x3D ∉ name) (value : Option Bytes) :
    splitValue (name ++ value.elim [] (0x3D :: ·)) = (name, value) := by
  induction name with
  | nil =>
    cases value with
    | none => rfl
    | some v => rfl
  | cons b name ih =>
    obtain ⟨hb, hname⟩ := not_or.mp fun h => hname (List.mem_cons.mpr h)
    rw [List.cons_append, splitValue, if_neg (Ne.symm hb), ih hname]

/-- One dash or two. -/
def Dashes (dashes : Bytes) : Prop := dashes = [0x2D] ∨ dashes = [0x2D, 0x2D]

theorem readName_sound {s name : Bytes} {value : Option Bytes} (h : readName s = .flag name value) :
    s = name ++ value.elim [] (0x3D :: ·) := by
  unfold readName at h
  split at h
  · cases h
  · rename_i b rest
    split at h
    · cases h
    · rw [Argument.flag.injEq] at h
      rw [← h.1, ← h.2]
      exact splitValue_sound (b :: rest)

theorem readArgument_sound {argument name : Bytes} {value : Option Bytes}
    (h : readArgument argument = .flag name value) :
    ∃ dashes, Dashes dashes ∧ argument = dashes ++ (name ++ value.elim [] (0x3D :: ·)) := by
  unfold readArgument at h
  split at h
  · cases h
  · exact ⟨[0x2D, 0x2D], .inr rfl, congrArg ([0x2D, 0x2D] ++ ·) (readName_sound h)⟩
  · exact ⟨[0x2D], .inl rfl, congrArg ([0x2D] ++ ·) (readName_sound h)⟩
  · cases h

theorem readArgument_terminator {argument : Bytes} (h : readArgument argument = .terminator) :
    argument = goString "--" := by
  unfold readArgument at h
  split at h
  · rfl
  · unfold readName at h
    split at h
    · cases h
    · split at h <;> cases h
  · unfold readName at h
    split at h
    · cases h
    · split at h <;> cases h
  · cases h

theorem readArgument_listen {dashes : Bytes} (hdashes : Dashes dashes) (value : Option Bytes) :
    readArgument (dashes ++ (goString "listen" ++ value.elim [] (0x3D :: ·))) =
      .flag (goString "listen") value := by
  have hnone : 0x3D ∉ goString "listen" := by decide
  have hsplit := splitValue_append hnone value
  have hname : readName (goString "listen" ++ value.elim [] (0x3D :: ·)) =
      .flag (goString "listen") value := by
    show Argument.flag (splitValue (goString "listen" ++ value.elim [] (0x3D :: ·))).1
      (splitValue (goString "listen" ++ value.elim [] (0x3D :: ·))).2 = _
    rw [hsplit]
  rcases hdashes with rfl | rfl
  · exact hname
  · exact hname

/-- The spellings of some `listen` flags with these values, and of nothing else; the last argument may be a
terminating `--`. -/
inductive Spells : List Bytes → List Bytes → Prop
  | nil : Spells [] []
  | terminated : Spells [goString "--"] []
  | joined {dashes value : Bytes} {arguments values : List Bytes} : Dashes dashes →
      Spells arguments values →
      Spells ((dashes ++ (goString "listen" ++ 0x3D :: value)) :: arguments) (value :: values)
  | separate {dashes value : Bytes} {arguments values : List Bytes} : Dashes dashes →
      Spells arguments values →
      Spells ((dashes ++ goString "listen") :: value :: arguments) (value :: values)

/-- The accepted command lines are those that spell `listen` flags; the last one counts. -/
theorem parseFlags_iff (arguments : List Bytes) (address listenAddress : Bytes) :
    parseFlags arguments address = .ok (listenAddress, []) ↔
      ∃ values, Spells arguments values ∧ listenAddress = values.getLastD address := by
  constructor
  · intro h
    fun_induction parseFlags arguments address with
    | case1 address =>
      cases h
      exact ⟨[], .nil, rfl⟩
    | case2 => cases h
    | case3 argument arguments address hread =>
      cases h
      rw [readArgument_terminator hread]
      exact ⟨[], .terminated, rfl⟩
    | case4 => cases h
    | case5 => cases h
    | case6 => cases h
    | case7 argument arguments address name hname value hread ih =>
      -- `-listen=value`
      obtain ⟨values, hspells, hlast⟩ := ih h
      obtain ⟨dashes, hdashes, rfl⟩ := readArgument_sound hread
      rw [not_not] at hname
      rw [hname]
      refine ⟨value :: values, .joined hdashes hspells, ?_⟩
      rw [List.getLastD_cons]
      exact hlast
    | case8 => cases h
    | case9 argument address name hname value arguments hread ih =>
      -- `-listen value`
      obtain ⟨values, hspells, hlast⟩ := ih h
      obtain ⟨dashes, hdashes, rfl⟩ := readArgument_sound hread
      rw [not_not] at hname
      rw [hname, Option.elim_none, List.append_nil]
      refine ⟨value :: values, .separate hdashes hspells, ?_⟩
      rw [List.getLastD_cons]
      exact hlast
  · rintro ⟨values, hspells, rfl⟩
    induction hspells generalizing address with
    | nil => rfl
    | terminated => rfl
    | @joined dashes value arguments values hdashes _ ih =>
      have hread : readArgument (dashes ++ (goString "listen" ++ 0x3D :: value)) =
          .flag (goString "listen") (some value) := readArgument_listen hdashes (some value)
      rw [parseFlags, hread]
      dsimp only
      rw [if_neg (not_not.mpr rfl), List.getLastD_cons]
      exact ih value
    | @separate dashes value arguments values hdashes _ ih =>
      have hread := readArgument_listen hdashes none
      rw [Option.elim_none, List.append_nil] at hread
      rw [parseFlags, hread]
      dsimp only
      rw [if_neg (not_not.mpr rfl), List.getLastD_cons]
      exact ih value

/-! ## Accepted addresses -/

/-- There is no Unicode white space at either end. -/
def Trimmed (s : Bytes) : Prop :=
  ∀ c : Char, isSpace c = true → ∀ rest, s ≠ encodeChar c ++ rest ∧ s ≠ rest ++ encodeChar c

theorem trimLeft_length_le (fuel : Nat) (s : Bytes) : (trimLeft fuel s).length ≤ s.length := by
  obtain ⟨w, -, hs⟩ := trimLeft_sound fuel s
  have hlength := congrArg List.length hs
  rw [List.length_append] at hlength
  omega

theorem trimRight_length_le (fuel : Nat) (s : Bytes) : (trimRight fuel s).length ≤ s.length := by
  obtain ⟨w, -, hs⟩ := trimRight_sound fuel s
  have hlength := congrArg List.length hs
  rw [List.length_append] at hlength
  omega

theorem trimLeft_eq_self {s : Bytes} : trimLeft s.length s = s ↔
    ∀ c : Char, isSpace c = true → ∀ rest, s ≠ encodeChar c ++ rest := by
  constructor
  · rintro h c hc rest rfl
    have hsize : (encodeChar c).length = c.utf8Size := String.length_utf8EncodeChar c
    have hpos := c.utf8Size_pos
    have hdecode : decodeRune (encodeChar c ++ rest) = (c, c.utf8Size) := by
      rw [decodeRune, Utf8.decodeChar?_encodeChar_append]
    obtain ⟨n, hn⟩ : ∃ n, (encodeChar c ++ rest).length = n + 1 :=
      Nat.exists_eq_succ_of_ne_zero (by rw [List.length_append]; omega)
    have hle := trimLeft_length_le n ((encodeChar c ++ rest).drop c.utf8Size)
    rw [hn, trimLeft, hdecode] at h
    dsimp only at h
    rw [if_pos ⟨Nat.pos_iff_ne_zero.mp hpos, hc⟩] at h
    rw [h, List.length_drop] at hle
    omega
  · intro h
    cases s.length with
    | zero => rfl
    | succ n =>
      rw [trimLeft]
      dsimp only
      rw [if_neg]
      rintro ⟨-, hspace⟩
      exact h _ hspace _ (decodeRune_space hspace)

theorem trimRight_eq_self {s : Bytes} : trimRight s.length s = s ↔
    ∀ c : Char, isSpace c = true → ∀ rest, s ≠ rest ++ encodeChar c := by
  constructor
  · rintro h c hc rest rfl
    have hsize : (encodeChar c).length = c.utf8Size := String.length_utf8EncodeChar c
    have hpos := c.utf8Size_pos
    obtain ⟨n, hn⟩ : ∃ n, (rest ++ encodeChar c).length = n + 1 :=
      Nat.exists_eq_succ_of_ne_zero (by rw [List.length_append]; omega)
    have hle := trimRight_length_le n ((rest ++ encodeChar c).take ((rest ++ encodeChar c).length - c.utf8Size))
    rw [hn, trimRight, decodeLastRune_encodeChar hc] at h
    dsimp only at h
    rw [if_pos ⟨Nat.pos_iff_ne_zero.mp hpos, hc⟩] at h
    rw [h, List.length_take] at hle
    omega
  · intro h
    cases s.length with
    | zero => rfl
    | succ n =>
      rw [trimRight]
      dsimp only
      rw [if_neg]
      rintro ⟨-, hspace⟩
      exact h _ hspace _ (decodeLastRune_space hspace)

/-- `strings.TrimSpace` leaves a text alone exactly when it is trimmed. -/
theorem trimSpace_eq_self (s : Bytes) : trimSpace s = s ↔ Trimmed s := by
  have hsplit : trimSpace s = s ↔ trimLeft s.length s = s ∧ trimRight s.length s = s := by
    unfold trimSpace
    constructor
    · intro h
      obtain ⟨w, -, hs⟩ := trimLeft_sound s.length s
      have hle := trimRight_length_le (trimLeft s.length s).length (trimLeft s.length s)
      have hlength := congrArg List.length hs
      rw [h] at hle
      rw [List.length_append] at hlength
      have hnil : w = [] := List.eq_nil_of_length_eq_zero (by omega)
      rw [hnil, List.nil_append] at hs
      rw [← hs] at h
      exact ⟨hs.symm, h⟩
    · rintro ⟨hleft, hright⟩
      rw [hleft, hright]
  rw [hsplit, trimLeft_eq_self, trimRight_eq_self]
  exact ⟨fun h c hc rest => ⟨h.1 c hc rest, h.2 c hc rest⟩,
    fun h => ⟨fun c hc rest => (h c hc rest).1, fun c hc rest => (h c hc rest).2⟩⟩

/-- What the service accepts as an address. -/
structure Acceptable (listenAddress : Bytes) : Prop where
  given : listenAddress ≠ []
  trimmed : Trimmed listenAddress
  length_le : listenAddress.length ≤ 255

/-- With the other settings of the default configuration, the address decides. -/
theorem newService_default (listenAddress : Bytes) :
    (Acceptable listenAddress → newService { defaultConfig with listenAddress := listenAddress } =
        .ok { defaultConfig with listenAddress := listenAddress }) ∧
      (¬ Acceptable listenAddress →
        ∃ err, newService { defaultConfig with listenAddress := listenAddress } = .error err) := by
  unfold newService validateConfig
  dsimp only
  constructor
  · rintro ⟨hgiven, htrimmed, hlength⟩
    have hlength' : ¬ listenAddress.length > maximumAddressLength := Nat.not_lt.mpr hlength
    rw [if_neg hgiven, if_neg (not_not.mpr ((trimSpace_eq_self _).mpr htrimmed)), if_neg hlength']
    rfl
  · intro h
    by_cases hgiven : listenAddress = []
    · rw [if_pos hgiven]
      exact ⟨_, rfl⟩
    rw [if_neg hgiven]
    by_cases htrimmed : Trimmed listenAddress
    · have hlength : listenAddress.length > maximumAddressLength :=
        Nat.lt_of_not_le fun hlength => h ⟨hgiven, htrimmed, hlength⟩
      rw [if_neg (not_not.mpr ((trimSpace_eq_self _).mpr htrimmed)), if_pos hlength]
      exact ⟨_, rfl⟩
    · rw [if_pos fun htrim => htrimmed ((trimSpace_eq_self _).mp htrim)]
      exact ⟨_, rfl⟩

/-! ## Startup -/

/-- **What a command line starts.**  If it spells `listen` flags only and the last address, or the default
one, is acceptable, the process listens on that address once and serves unless that fails; every other
command line is refused with a message and nothing is listened on. -/
theorem run_startup {ε : Type} (listen : Bytes → Option ε) (canceled : Bool) (arguments : List Bytes) :
    (∀ values, Spells arguments values → Acceptable (values.getLastD defaultConfig.listenAddress) →
      run listen canceled arguments = ⟨[values.getLastD defaultConfig.listenAddress],
        match listen (values.getLastD defaultConfig.listenAddress) with
        | some err => .error (.listen err)
        | none => .ok (start (some canceled) true)⟩) ∧
    ((∀ values, Spells arguments values → ¬ Acceptable (values.getLastD defaultConfig.listenAddress)) →
      ∃ message, run listen canceled arguments = ⟨[], .error (.text message)⟩) := by
  have hempty : ¬ ([] : List Bytes).length ≠ 0 := not_not.mpr rfl
  constructor
  · intro values hspells hacceptable
    have hparse := (parseFlags_iff arguments defaultConfig.listenAddress _).mpr ⟨values, hspells, rfl⟩
    unfold run
    rw [hparse]
    dsimp only
    rw [if_neg hempty, (newService_default _).1 hacceptable]
    dsimp only
    cases listen (values.getLastD defaultConfig.listenAddress) with
    | some err => rfl
    | none => rfl
  · intro hnone
    unfold run
    cases hparse : parseFlags arguments defaultConfig.listenAddress with
    | error err => exact ⟨_, rfl⟩
    | ok parsed =>
      obtain ⟨listenAddress, rest⟩ := parsed
      dsimp only
      cases rest with
      | cons argument rest => exact ⟨_, rfl⟩
      | nil =>
        obtain ⟨values, hspells, rfl⟩ := (parseFlags_iff arguments _ _).mp hparse
        obtain ⟨err, herr⟩ := (newService_default _).2 (hnone values hspells)
        rw [if_neg hempty, herr]
        exact ⟨_, rfl⟩

theorem run_startup_sample :
    run (fun _ => (none : Option String)) false [goString "--listen", goString ":80", goString "-listen=:8080"] =
      ⟨[goString ":8080"], .ok (start (some false) true)⟩ := by
  have hspells : Spells [goString "--listen", goString ":80", goString "-listen=:8080"]
      [goString ":80", goString ":8080"] := .separate (.inr rfl) (.joined (.inl rfl) .nil)
  exact (run_startup _ false _).1 _ hspells ⟨by decide, (trimSpace_eq_self _).mp (by decide), by decide⟩

end FastGate.Service
