-- SUMMARY: The terminal hints of an SSH client: pty, window and environment requests, and when their order matters.
import TelnetTlsServer.Lib.Transition
import TelnetTlsServer.Session.Parser
import TelnetTlsServer.Ssh.Editor

/-!
# Terminal hints on SSH

A client announces its terminal by a `pty-req` with the terminal's name and size, by
window changes and by environment variables. `TERM` decides two of the colour fields by
assignment, `COLORTERM` sets three of them. A terminal that is announced after the
environment therefore takes back what `COLORTERM` said, unless its name says as much.
-/

/-! ## Names -/

def asciiStartsIgnoreCase : Bytes → Bytes → Bool
  | _, [] => true
  | [], _ :: _ => false
  | a :: text, b :: needle => asciiLower a = asciiLower b && asciiStartsIgnoreCase text needle

/-- The outer loop of `ascii_contains_ignore_case`. -/
def asciiContainsFrom (needle : Bytes) : Bytes → Bool
  | [] => false
  | ch :: rest => asciiStartsIgnoreCase (ch :: rest) needle || asciiContainsFrom needle rest

def asciiContainsIgnoreCase (text needle : Bytes) : Bool :=
  if needle = [] then true else asciiContainsFrom needle text

theorem length_le_of_starts {text needle : Bytes} (h : asciiStartsIgnoreCase text needle = true) :
    needle.length ≤ text.length := by
  fun_induction asciiStartsIgnoreCase text needle with
  | case1 => exact Nat.zero_le _
  | case2 => cases h
  | case3 a text b needle ih =>
    rw [Bool.and_eq_true] at h
    exact Nat.succ_le_succ (ih h.2)

theorem length_le_of_contains {text needle : Bytes} (h : asciiContainsIgnoreCase text needle = true) :
    needle.length ≤ text.length := by
  unfold asciiContainsIgnoreCase at h
  split at h
  case isTrue hnil => simp [hnil]
  case isFalse =>
    induction text with
    | nil => cases h
    | cons ch rest ih =>
      rw [asciiContainsFrom, Bool.or_eq_true] at h
      rcases h with hhere | hlater
      · exact length_le_of_starts hhere
      · exact (ih hlater).trans (Nat.le_succ _)

/-! ## The requests -/

/-- A connection together with what it knows of the client's terminal. -/
structure SshTerminal (χ α : Type) where
  connection : SshConnection χ α
  capabilities : TerminalCapabilities

def copyTerminalField {n : Nat} (output : Buffer n) (input : Bytes) : Buffer n :=
  output.copyString ((input.take (n - 1)).map fun ch => if 0x20 ≤ ch && ch ≤ 0x7e then ch else 63)

/-- What a connection starts with, the version being what the client announced, if it
did. -/
def initialCapabilities (clientBanner : Option Bytes) : TerminalCapabilities where
  width := 80
  height := 24
  utf8 := false
  ansi := false
  color256 := false
  truecolor := false
  screenReader := false
  secureTransport := true
  gmcp := false
  osc8 := false
  osc8Send := false
  osc8Prompt := false
  osc8Tooltip := false
  terminalType := copyTerminalField (.zero _) (ascii "UNKNOWN")
  clientName := copyTerminalField (.zero _) (ascii "SSH")
  clientVersion := copyTerminalField (copyTerminalField (.zero _) (ascii "UNKNOWN"))
    (clientBanner.getD (ascii "UNKNOWN"))

/-- `term` is there and not empty, and not `dumb`. -/
def termIsAnsi (term : Option Bytes) : Bool :=
  match term with
  | none => false
  | some term => term ≠ [] && !asciiEqualIgnoreCase term (ascii "dumb")

def termHas256Colors (term : Option Bytes) : Bool :=
  match term with
  | none => false
  | some term => asciiContainsIgnoreCase term (ascii "256color")

/-- The name that is shown for the terminal. -/
def termName (term : Option Bytes) : Bytes :=
  match term with
  | none => ascii "UNKNOWN"
  | some term => if term ≠ [] then term else ascii "UNKNOWN"

def refreshTermCapabilities (c : TerminalCapabilities) (term : Option Bytes) :
    TerminalCapabilities :=
  { c with
    terminalType := copyTerminalField c.terminalType (termName term)
    ansi := termIsAnsi term
    color256 := termHas256Colors term }

/-- A size is taken over if it fits its field. -/
def resize (c : TerminalCapabilities) (width height : Int) : TerminalCapabilities :=
  { c with
    width := if 0 < width ∧ width ≤ 65535 then width.toNat else c.width
    height := if 0 < height ∧ height ≤ 65535 then height.toNat else c.height }

def localeSaysUtf8 (value : Bytes) : Bool :=
  asciiContainsIgnoreCase value (ascii "utf-8") || asciiContainsIgnoreCase value (ascii "utf8")

namespace SshTerminal

variable {χ α : Type} (lib : SshLibrary χ) (application : Application α)

def notifyCapabilities (t : SshTerminal χ α) : SshTerminal χ α :=
  match t.connection.applicationSession, application.capabilitiesChanged with
  | some session, some hook =>
      { t with
        connection := t.connection.onWire fun w =>
          (w.callHook lib (.capabilitiesChanged session t.capabilities)
            (hook session t.capabilities)).2 }
  | _, _ => t

def ptyRequestCallback (t : SshTerminal χ α) (term : Option Bytes) (width height : Int) :
    Int × SshTerminal χ α :=
  let t := { t with capabilities := resize t.capabilities width height }
  let t := { t with capabilities := refreshTermCapabilities t.capabilities term }
  (0, t.notifyCapabilities lib application)

def windowChangeCallback (t : SshTerminal χ α) (width height : Int) : Int × SshTerminal χ α :=
  let t := { t with capabilities := resize t.capabilities width height }
  (0, t.notifyCapabilities lib application)

/-- Only hints about the terminal are taken; 1 refuses the variable. -/
def envRequestCallback (t : SshTerminal χ α) (name value : Option Bytes) : Int × SshTerminal χ α :=
  match name, value with
  | some name, some value =>
      if asciiEqualIgnoreCase name (ascii "LANG") || asciiEqualIgnoreCase name (ascii "LC_CTYPE") then
        if localeSaysUtf8 value then
          let t := { t with capabilities := { t.capabilities with utf8 := true } }
          (0, t.notifyCapabilities lib application)
        else (0, t)
      else if asciiEqualIgnoreCase name (ascii "COLORTERM") then
        if asciiContainsIgnoreCase value (ascii "truecolor") ||
            asciiContainsIgnoreCase value (ascii "24bit") then
          let t := { t with
            capabilities := { t.capabilities with truecolor := true, color256 := true, ansi := true } }
          (0, t.notifyCapabilities lib application)
        else (0, t)
      else (1, t)
  | _, _ => (1, t)

theorem capabilities_notify (t : SshTerminal χ α) :
    (t.notifyCapabilities lib application).capabilities = t.capabilities := by
  unfold notifyCapabilities
  split <;> rfl

end SshTerminal

/-! ## What they do to the capabilities -/

/-- The environment says that the terminal shows UTF-8. -/
def envHintsUtf8 : Option Bytes → Option Bytes → Bool
  | some name, some value =>
      (asciiEqualIgnoreCase name (ascii "LANG") || asciiEqualIgnoreCase name (ascii "LC_CTYPE")) &&
        localeSaysUtf8 value
  | _, _ => false

/-- The environment says that the terminal shows all colours. -/
def envHintsTruecolor : Option Bytes → Option Bytes → Bool
  | some name, some value =>
      asciiEqualIgnoreCase name (ascii "COLORTERM") &&
        (asciiContainsIgnoreCase value (ascii "truecolor") ||
          asciiContainsIgnoreCase value (ascii "24bit"))
  | _, _ => false

def envCapabilities (c : TerminalCapabilities) (name value : Option Bytes) : TerminalCapabilities :=
  if envHintsUtf8 name value then { c with utf8 := true }
  else if envHintsTruecolor name value then
    { c with truecolor := true, color256 := true, ansi := true }
  else c

/-- The variables that name a locale do not name colours. -/
theorem not_colorterm {name : Bytes}
    (h : (asciiEqualIgnoreCase name (ascii "LANG") || asciiEqualIgnoreCase name (ascii "LC_CTYPE")) =
      true) : asciiEqualIgnoreCase name (ascii "COLORTERM") = false := by
  rw [← Bool.not_eq_true]
  intro hcolor
  rw [Bool.or_eq_true, asciiEqualIgnoreCase_iff, asciiEqualIgnoreCase_iff] at h
  rw [asciiEqualIgnoreCase_iff] at hcolor
  rw [hcolor] at h
  revert h
  decide

/-- The requests of a client. -/
inductive SshRequest where
  | pty (term : Option Bytes) (width height : Int)
  | windowChange (width height : Int)
  | env (name value : Option Bytes)

namespace SshRequest

variable {χ α : Type} (lib : SshLibrary χ) (application : Application α)

def handle (t : SshTerminal χ α) : SshRequest → SshTerminal χ α
  | pty term width height => (t.ptyRequestCallback lib application term width height).2
  | windowChange width height => (t.windowChangeCallback lib application width height).2
  | env name value => (t.envRequestCallback lib application name value).2

def onCapabilities (c : TerminalCapabilities) : SshRequest → TerminalCapabilities
  | pty term width height => refreshTermCapabilities (resize c width height) term
  | windowChange width height => resize c width height
  | env name value => envCapabilities c name value

theorem capabilities_env (t : SshTerminal χ α) (name value : Option Bytes) :
    (t.envRequestCallback lib application name value).2.capabilities =
      envCapabilities t.capabilities name value := by
  unfold envCapabilities
  fun_cases SshTerminal.envRequestCallback lib application t name value with
  | case1 name value hlocale hutf8 _ =>
    rw [SshTerminal.capabilities_notify, if_pos (by simp [envHintsUtf8, hutf8, hlocale])]
  | case2 name value hlocale hutf8 =>
    rw [if_neg (by simp [envHintsUtf8, hutf8]),
      if_neg (by simp [envHintsTruecolor, not_colorterm hlocale])]
  | case3 name value hlocale hcolor hhint _ =>
    rw [SshTerminal.capabilities_notify, if_neg (by simp_all [envHintsUtf8]),
      if_pos (by simp [envHintsTruecolor, hcolor, hhint])]
  | case4 name value hlocale hcolor hhint =>
    rw [if_neg (by simp_all [envHintsUtf8]), if_neg (by simp_all [envHintsTruecolor])]
  | case5 name value hlocale hcolor =>
    rw [if_neg (by simp_all [envHintsUtf8]), if_neg (by simp [envHintsTruecolor, hcolor])]
  | case6 name value hmissing =>
    -- A variable without a name or a value hints at nothing.
    cases name with
    | none => rfl
    | some name =>
      cases value with
      | none => rfl
      | some value => exact (hmissing name value rfl rfl).elim

theorem capabilities_handle (t : SshTerminal χ α) (request : SshRequest) :
    (request.handle lib application t).capabilities = request.onCapabilities t.capabilities := by
  cases request with
  | pty term width height => exact SshTerminal.capabilities_notify lib application _
  | windowChange width height => exact SshTerminal.capabilities_notify lib application _
  | env name value => exact capabilities_env lib application t name value

end SshRequest

/-! ## When their order matters -/

/-- A name that says 256 colours is not empty and not `dumb`. -/
theorem termIsAnsi_of_256 {term : Option Bytes} (h : termHas256Colors term = true) :
    termIsAnsi term = true := by
  cases term with
  | none => cases h
  | some term =>
    have hlength : 8 ≤ term.length := length_le_of_contains h
    have hne : term ≠ [] := by
      rintro rfl
      simp at hlength
    have hdumb : asciiEqualIgnoreCase term (ascii "dumb") = false := by
      rw [← Bool.not_eq_true, asciiEqualIgnoreCase_iff]
      intro heq
      have hfour := congrArg List.length heq
      rw [List.length_map] at hfour
      exact absurd hlength (by rw [hfour]; decide)
    simp [termIsAnsi, hne, hdumb]

theorem envHintsUtf8_of_truecolor {name value : Option Bytes}
    (h : envHintsTruecolor name value = true) : envHintsUtf8 name value = false := by
  unfold envHintsTruecolor at h
  split at h
  case h_1 name value =>
    rw [Bool.and_eq_true] at h
    rw [envHintsUtf8, ← Bool.not_eq_true, Bool.and_eq_true]
    rintro ⟨hlocale, -⟩
    rw [not_colorterm hlocale] at h
    cases h.1
  case h_2 => cases h

theorem pty_env_commute_iff (c : TerminalCapabilities) (term : Option Bytes) (width height : Int)
    (name value : Option Bytes) :
    envCapabilities (refreshTermCapabilities (resize c width height) term) name value =
        refreshTermCapabilities (resize (envCapabilities c name value) width height) term ↔
      (envHintsTruecolor name value = true → termHas256Colors term = true) := by
  unfold envCapabilities
  by_cases htrue : envHintsTruecolor name value = true
  · simp only [htrue, envHintsUtf8_of_truecolor htrue, Bool.false_eq_true, if_false, if_true,
      true_implies]
    constructor
    · intro heq
      exact (congrArg TerminalCapabilities.color256 heq).symm
    · intro h256
      simp [refreshTermCapabilities, resize, h256, termIsAnsi_of_256 h256]
  · refine iff_of_true ?_ fun h => absurd h htrue
    simp only [if_neg htrue]
    split <;> rfl

/-- All colours include 256 of them, and the sequences that set them. -/
def TerminalCapabilities.Coherent (c : TerminalCapabilities) : Prop :=
  c.truecolor = true → c.color256 = true ∧ c.ansi = true

namespace SshRequest

/-- One request keeps the colours coherent, unless it names a terminal with fewer. -/
theorem coherent_onCapabilities_iff {c : TerminalCapabilities} (h : c.Coherent)
    (request : SshRequest) : (request.onCapabilities c).Coherent ↔
      ∀ term width height, request = .pty term width height → c.truecolor = true →
        termHas256Colors term = true := by
  cases request with
  | pty term width height =>
    constructor
    · rintro hafter _ _ _ ⟨⟩ htrue
      exact (hafter htrue).1
    · intro hterm htrue
      have h256 := hterm term width height rfl htrue
      exact ⟨h256, termIsAnsi_of_256 h256⟩
  | windowChange width height => exact ⟨fun _ _ _ _ hpty => SshRequest.noConfusion hpty, fun _ => h⟩
  | env name value =>
    refine ⟨fun _ _ _ _ hpty => SshRequest.noConfusion hpty, fun _ => ?_⟩
    show (envCapabilities c name value).Coherent
    unfold envCapabilities
    split_ifs
    · exact h
    · exact fun _ => ⟨rfl, rfl⟩
    · exact h

theorem truecolor_onCapabilities_iff (c : TerminalCapabilities) (request : SshRequest) :
    (request.onCapabilities c).truecolor = true ↔ c.truecolor = true ∨
      ∃ name value, request = .env name value ∧ envHintsTruecolor name value = true := by
  cases request with
  | pty term width height | windowChange width height =>
    simp [onCapabilities, refreshTermCapabilities, resize]
  | env name value =>
    by_cases htrue : envHintsTruecolor name value = true
    · simp [onCapabilities, envCapabilities, htrue, envHintsUtf8_of_truecolor htrue]
    · by_cases hutf8 : envHintsUtf8 name value = true <;>
        simp [onCapabilities, envCapabilities, htrue, hutf8]

/-- The capabilities after some requests. -/
def run (c : TerminalCapabilities) (requests : List SshRequest) : TerminalCapabilities :=
  requests.foldl onCapabilities c

theorem truecolor_run_iff (c : TerminalCapabilities) (requests : List SshRequest) :
    (run c requests).truecolor = true ↔ c.truecolor = true ∨
      ∃ name value, .env name value ∈ requests ∧ envHintsTruecolor name value = true := by
  induction requests generalizing c with
  | nil => simp [run]
  | cons request requests ih =>
    rw [run, List.foldl_cons, ← run, ih, truecolor_onCapabilities_iff, or_assoc]
    refine or_congr_right ⟨?_, ?_⟩
    · rintro (⟨name, value, rfl, htrue⟩ | ⟨name, value, hmem, htrue⟩)
      · exact ⟨name, value, List.mem_cons_self, htrue⟩
      · exact ⟨name, value, List.mem_cons_of_mem _ hmem, htrue⟩
    · rintro ⟨name, value, hmem, htrue⟩
      rcases List.mem_cons.mp hmem with rfl | hmem
      · exact .inl ⟨name, value, rfl, htrue⟩
      · exact .inr ⟨name, value, hmem, htrue⟩

end SshRequest

namespace SshTerminal

variable {χ α : Type} (lib : SshLibrary χ) (application : Application α)

/-- The callbacks of a client's requests, one after the other. -/
def requests (t : SshTerminal χ α) (requests : List SshRequest) : SshTerminal χ α :=
  requests.foldl (fun t request => request.handle lib application t) t

theorem capabilities_requests (t : SshTerminal χ α) (requests : List SshRequest) :
    (t.requests lib application requests).capabilities = SshRequest.run t.capabilities requests := by
  induction requests generalizing t with
  | nil => rfl
  | cons request requests ih =>
    rw [SshTerminal.requests, List.foldl_cons, ← SshTerminal.requests, ih,
      SshRequest.capabilities_handle]
    rfl

end SshTerminal

/-- A `pty-req` and an environment variable can be exchanged exactly if the variable does not
announce all colours or the terminal's name says 256 colours; and from the first request on
the colours stay coherent exactly if every terminal that is announced behind such a variable
has such a name. -/
theorem capability_hints_iff {χ α : Type} (lib : SshLibrary χ) (application : Application α)
    (t : SshTerminal χ α) {clientBanner : Option Bytes}
    (hinitial : t.capabilities = initialCapabilities clientBanner) :
    (∀ (term : Option Bytes) (width height : Int) (name value : Option Bytes),
      (t.requests lib application [.pty term width height, .env name value]).capabilities =
          (t.requests lib application [.env name value, .pty term width height]).capabilities ↔
        (envHintsTruecolor name value = true → termHas256Colors term = true)) ∧
    ∀ requests : List SshRequest,
      (∀ before, before <+: requests →
        (t.requests lib application before).capabilities.Coherent) ↔
      ∀ before term width height, before ++ [.pty term width height] <+: requests →
        (∃ name value, .env name value ∈ before ∧ envHintsTruecolor name value = true) →
        termHas256Colors term = true := by
  simp only [SshTerminal.capabilities_requests, hinitial]
  refine ⟨fun term width height name value => pty_env_commute_iff _ term width height name value,
    fun requests => ?_⟩
  have hcoherent : (initialCapabilities clientBanner).Coherent := fun htrue => by cases htrue
  have hstep : ∀ (c : TerminalCapabilities) (request : SshRequest), c.Coherent → _ :=
    fun c request h => SshRequest.coherent_onCapabilities_iff h request
  have halong := Transition.System.along_iff (P := TerminalCapabilities.Coherent) hcoherent hstep
    requests
  refine halong.trans ⟨fun h before term width height hbefore hhint => ?_,
    fun h before request hbefore term width height hpty htrue => ?_⟩
  · exact h before _ hbefore term width height rfl
      ((SshRequest.truecolor_run_iff (initialCapabilities clientBanner) before).mpr (.inr hhint))
  · subst hpty
    refine h before term width height hbefore ?_
    have hhint := (SshRequest.truecolor_run_iff (initialCapabilities clientBanner) before).mp htrue
    exact hhint.resolve_left fun hfirst => by cases hfirst

/-- A connection at its start, before its shell. -/
def SshTerminal.fresh : SshTerminal Unit Unit where
  connection :=
    { wire := ⟨some (), false, false, (), []⟩
      applicationSession := none
      line := .zero 513
      lineLength := 0
      pendingCr := false
      escapeState := .ground
      shellStarted := false
      lastActivityMs := 1
      byteWindow := ⟨0, 0⟩
      lineWindow := ⟨0, 0⟩ }
  capabilities := initialCapabilities none

/-- A terminal with all colours and a plain name: the colours depend on the order, and the
second one leaves all colours without the 256. -/
theorem capability_hints_disagree :
    let pty : SshRequest := .pty (some (ascii "xterm")) 80 24
    let env : SshRequest := .env (some (ascii "COLORTERM")) (some (ascii "truecolor"))
    let first := (SshTerminal.fresh.requests .willing .idle [pty, env]).capabilities
    let second := (SshTerminal.fresh.requests .willing .idle [env, pty]).capabilities
    (first.truecolor = true ∧ first.color256 = true) ∧
      second.truecolor = true ∧ second.color256 = false := by
  decide

/-- With `xterm-256color` the order does not matter. -/
theorem capability_hints_iff_256color :
    (SshTerminal.fresh.requests .willing .idle [.pty (some (ascii "xterm-256color")) 80 24,
        .env (some (ascii "COLORTERM")) (some (ascii "truecolor"))]).capabilities =
      (SshTerminal.fresh.requests .willing .idle
        [.env (some (ascii "COLORTERM")) (some (ascii "truecolor")),
          .pty (some (ascii "xterm-256color")) 80 24]).capabilities :=
  ((capability_hints_iff .willing .idle SshTerminal.fresh rfl).1 _ 80 24 _ _).mpr fun _ => by decide
