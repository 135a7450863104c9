-- SUMMARY: When the MNES fact of a session agrees with the MTTS flags and the vocabulary its peer has used.
import TelnetTlsServer.Session.Coherence

/-!
# MNES

A peer has MNES if its MTTS flags say so or if it has used the MNES vocabulary.
The refresh computes the fact from both. An MTTS report writes it from the flags
alone, and a NEW-ENVIRON report that is given up is not followed by the refresh,
so the fact depends on the order and the shape of the reports. `keepsMnes` says
of each payload whether it leaves the fact right.
-/

namespace Capability

def flagsMnes (flags : UInt32) : Bool := flags &&& mttsMnes ≠ 0

def hasMnes (c : Capability) : Bool := flagsMnes c.terminal.mttsFlags || c.mnesObserved

def MnesCurrent (c : Capability) : Prop := c.terminal.mnes = c.hasMnes

/-- The flags that count in the end. -/
def lastMtts (entries : List EnvironEntry) : Option UInt32 :=
  (entries.filterMap EnvironEntry.mtts?).getLast?

/-- Entries that are not followed by the refresh leave the fact right: the last
flags among them say MNES or the peer has never used the vocabulary; without
flags, the peer had MNES already or does not use the vocabulary now. -/
def entriesKeepMnes (c : Capability) (entries : List EnvironEntry) : Bool :=
  match lastMtts entries with
  | some flags => flagsMnes flags || !(c.mnesObserved || entries.any EnvironEntry.speaksMnes)
  | none => c.hasMnes || !entries.any EnvironEntry.speaksMnes

/-- A payload leaves the fact right. -/
def keepsMnes (c : Capability) (option : UInt8) (payload : Bytes) : Bool :=
  if option = Telnet.Opt.terminalType then
    match c.mttsPayload payload with
    | some flags => flagsMnes flags || !c.mnesObserved
    | none => true
  else if option = Telnet.Opt.newEnviron then
    match Link.environPayload c payload with
    | some (entries, false) => c.entriesKeepMnes entries
    | _ => true
  else true

/-! ## Entries -/

theorem mnesObserved_observeMnes (c : Capability) (token : UInt8) :
    (c.observeMnes token).mnesObserved =
      (c.mnesObserved || decide (token = newEnvironVar)) := by
  unfold observeMnes
  split
  case isTrue h => simp [h]
  case isFalse h => simp [h]

/-- What an entry does to the flags, the fact and the vocabulary. -/
theorem mnes_applyEntry (c : Capability) (entry : EnvironEntry) :
    (c.applyEntry entry).mnesObserved = (c.mnesObserved || entry.speaksMnes) ∧
      (c.applyEntry entry).terminal.mttsFlags = entry.mtts?.getD c.terminal.mttsFlags ∧
      (c.applyEntry entry).terminal.mnes = (entry.mtts?.map flagsMnes).getD c.terminal.mnes := by
  have hterminal := terminal_observeMnes c entry.token
  have hobserved := mnesObserved_observeMnes c entry.token
  have happlied := applied_applyEntry c entry
  generalize c.applyEntry entry = c' at happlied ⊢
  cases happlied with
  | told hmnes hmtts ht =>
    rw [hmnes, hmtts]
    exact ⟨hobserved, congrArg Derived.mttsFlags ht, congrArg Derived.mnes ht⟩
  | utf8 hmnes hmtts =>
    rw [hmnes, hmtts, ← hterminal]
    exact ⟨hobserved, rfl, rfl⟩
  | flags hmnes hmtts =>
    rw [hmnes, hmtts]
    exact ⟨hobserved, rfl, rfl⟩
  | other hmnes hmtts ht =>
    rw [hmnes, hmtts, Bool.or_false]
    exact ⟨rfl, congrArg Derived.mttsFlags ht, congrArg Derived.mnes ht⟩

theorem mnes_entries (c : Capability) (entries : List EnvironEntry) :
    (entries.foldl applyEntry c).mnesObserved =
        (c.mnesObserved || entries.any EnvironEntry.speaksMnes) ∧
      (entries.foldl applyEntry c).terminal.mttsFlags =
        (lastMtts entries).getD c.terminal.mttsFlags ∧
      (entries.foldl applyEntry c).terminal.mnes =
        ((lastMtts entries).map flagsMnes).getD c.terminal.mnes := by
  induction entries using List.reverseRecOn with
  | nil => simp [lastMtts]
  | append_singleton entries entry ih =>
    obtain ⟨hobserved, hflags, hmnes⟩ := ih
    obtain ⟨hobserved', hflags', hmnes'⟩ := mnes_applyEntry (entries.foldl applyEntry c) entry
    have hlast : lastMtts (entries ++ [entry]) = entry.mtts?.or (lastMtts entries) := by
      unfold lastMtts
      rw [List.filterMap_append, List.getLast?_append]
      cases h : entry.mtts? <;> simp [h]
    rw [List.foldl_append, List.foldl_cons, List.foldl_nil, hlast]
    refine ⟨?_, ?_, ?_⟩
    · rw [hobserved', hobserved]
      simp [Bool.or_assoc]
    · rw [hflags', hflags]
      cases entry.mtts? <;> rfl
    · rw [hmnes', hmnes]
      cases entry.mtts? <;> rfl

theorem mnesCurrent_entries_iff {c : Capability} (h : c.MnesCurrent) (entries : List EnvironEntry) :
    (entries.foldl applyEntry c).MnesCurrent ↔ c.entriesKeepMnes entries = true := by
  obtain ⟨hobserved, hflags, hmnes⟩ := mnes_entries c entries
  unfold MnesCurrent hasMnes entriesKeepMnes
  rw [hobserved, hflags, hmnes]
  cases lastMtts entries with
  | some flags =>
    simp only [Option.map_some, Option.getD_some]
    cases flagsMnes flags <;> cases c.mnesObserved <;>
      cases entries.any EnvironEntry.speaksMnes <;> simp
  | none =>
    simp only [Option.map_none, Option.getD_none]
    rw [show c.terminal.mnes = c.hasMnes from h, hasMnes]
    cases flagsMnes c.terminal.mttsFlags <;> cases c.mnesObserved <;>
      cases entries.any EnvironEntry.speaksMnes <;> simp

theorem MnesCurrent.of_fields {c c' : Capability} (h : c.MnesCurrent)
    (hflags : c'.terminal.mttsFlags = c.terminal.mttsFlags)
    (hmnes : c'.terminal.mnes = c.terminal.mnes) (hobserved : c'.mnesObserved = c.mnesObserved) :
    c'.MnesCurrent := by
  unfold MnesCurrent hasMnes
  rw [hflags, hmnes, hobserved]
  exact h

theorem mnesCurrent_of_known {c c' : Capability} (h : c'.known = c.known) :
    c'.MnesCurrent ↔ c.MnesCurrent := by
  simp only [MnesCurrent, hasMnes, terminal_of_known h, mnesObserved_of_known h]

/-- The refresh makes the fact right whatever it was. -/
theorem mnesCurrent_refreshed (c : Capability) :
    (Link.copyOptionMetadata c).refreshUtf8Metadata.MnesCurrent := rfl

end Capability

/-! ## Payloads and actions -/

namespace Link

variable {α : Type}

open Capability

theorem mnesCurrent_handleTerminalType_iff {l : Link α} (h : l.caps.MnesCurrent) (payload : Bytes) :
    (l.handleTerminalType payload).caps.MnesCurrent ↔
      l.caps.keepsMnes Telnet.Opt.terminalType payload = true := by
  have hknown := known_handleTerminalType l payload
  unfold keepsMnes
  rw [if_pos rfl]
  rcases untoldTerminalType_cases l.caps payload with
    ⟨hmtts, hnone⟩ | ⟨flags, hmtts, hflags⟩ | ⟨hmtts, t, ht, hderived⟩
  · rw [hnone] at hknown
    rw [hmtts]
    exact iff_of_true ((mnesCurrent_of_known hknown).mpr h) rfl
  · rw [hflags] at hknown
    have hafter := mnesCurrent_of_known (c := { l.caps with
      terminal := applyMttsFlags l.caps.terminal flags }.refreshUtf8Metadata) hknown
    have hvalue : ({ l.caps with terminal := applyMttsFlags l.caps.terminal flags } :
        Capability).refreshUtf8Metadata.MnesCurrent ↔
        flagsMnes flags = (flagsMnes flags || l.caps.mnesObserved) := .rfl
    rw [hafter, hvalue, hmtts]
    dsimp only
    cases flagsMnes flags <;> cases l.caps.mnesObserved <;> simp
  · rw [ht] at hknown
    rw [hmtts]
    refine iff_of_true ?_ rfl
    have hterminal : (l.handleTerminalType payload).caps.terminal = t :=
      congrArg Known.terminal hknown
    refine h.of_fields ?_ ?_ (congrArg Known.mnesObserved hknown)
    · exact hterminal ▸ congrArg Derived.mttsFlags hderived
    · exact hterminal ▸ congrArg Derived.mnes hderived

theorem mnesCurrent_handleNewEnviron_iff (hooks : Application α) {l : Link α}
    (h : l.caps.MnesCurrent) (payload : Bytes) :
    (l.handleNewEnviron hooks payload).caps.MnesCurrent ↔
      l.caps.keepsMnes Telnet.Opt.newEnviron payload = true := by
  rw [mnesCurrent_of_known (known_handleNewEnviron hooks l payload)]
  unfold environed keepsMnes
  rw [if_neg (by decide), if_pos rfl]
  cases environPayload l.caps payload with
  | none => exact iff_of_true h rfl
  | some report =>
    rcases report with ⟨entries, _ | _⟩
    · exact mnesCurrent_entries_iff h entries
    · exact iff_of_true (mnesCurrent_refreshed _) rfl

theorem mnesCurrent_handleNaws {l : Link α} (h : l.caps.MnesCurrent) (payload : Bytes) :
    (l.handleNaws payload).caps.MnesCurrent := by
  have hknown := known_handleNaws l payload
  have hterminal : (l.handleNaws payload).caps.terminal.derived = l.caps.terminal.derived :=
    (congrArg TelnetTerminalInfo.derived (congrArg Known.terminal hknown)).trans
      (derived_untoldNaws l.caps payload)
  exact h.of_fields (congrArg Derived.mttsFlags hterminal) (congrArg Derived.mnes hterminal)
    (congrArg Known.mnesObserved hknown)

theorem mnesCurrent_handleCharset {l : Link α} (h : l.caps.MnesCurrent) (payload : Bytes) :
    (l.handleCharset payload).caps.MnesCurrent := by
  have hknown := known_handleCharset l payload
  have hterminal : (l.handleCharset payload).caps.terminal =
      (l.caps.untoldCharset payload).getD l.caps.terminal := congrArg Known.terminal hknown
  have hkept : ((l.caps.untoldCharset payload).getD l.caps.terminal).mttsFlags =
        l.caps.terminal.mttsFlags ∧
      ((l.caps.untoldCharset payload).getD l.caps.terminal).mnes = l.caps.terminal.mnes := by
    unfold untoldCharset
    cases l.caps.charsetOutcome payload <;> exact ⟨rfl, rfl⟩
  rw [← hterminal] at hkept
  exact h.of_fields hkept.1 hkept.2 (congrArg Known.mnesObserved hknown)

theorem mnesCurrent_finishSubnegotiation_iff (hooks : Application α) {l : Link α}
    (h : l.caps.MnesCurrent) (option : UInt8) (payload : Bytes) :
    (l.finishSubnegotiation hooks option payload).caps.MnesCurrent ↔
      l.caps.keepsMnes option payload = true := by
  have hfree : option ≠ Telnet.Opt.terminalType → option ≠ Telnet.Opt.newEnviron →
      l.caps.keepsMnes option payload = true := fun htype henviron => by
    simp only [keepsMnes, htype, henviron, if_false]
  unfold finishSubnegotiation
  split_ifs with hnaws htype hcharset henviron
  · subst hnaws
    exact iff_of_true (mnesCurrent_handleNaws h payload) (hfree (by decide) (by decide))
  · subst htype
    exact mnesCurrent_handleTerminalType_iff h payload
  · subst hcharset
    exact iff_of_true (mnesCurrent_handleCharset h payload) (hfree (by decide) (by decide))
  · subst henviron
    exact mnesCurrent_handleNewEnviron_iff hooks h payload
  · exact iff_of_true ((mnesCurrent_of_known (caps_handleGmcp hooks l payload).1).mpr h)
      (hfree htype henviron)
  · exact iff_of_true h (hfree htype henviron)

end Link

namespace Conn

variable {β α : Type}

/-- A subnegotiation that ends leaves the fact right. -/
def KeepsMnes (c : Conn β α) (action : Action) : Prop :=
  c.finishes action = true →
    c.link.caps.keepsMnes c.parsing.subnegotiationOption c.parsing.subnegotiation = true

theorem mnesCurrent_act_iff (host : Host β α) {c : Conn β α} (h : c.link.caps.MnesCurrent)
    (action : Action) : (c.act host action).link.caps.MnesCurrent ↔ c.KeepsMnes action := by
  have hturn := turn_act host c action
  unfold KeepsMnes
  generalize (c.act host action).link = link at hturn ⊢
  cases hturn with
  | aside _ hfinishes haside =>
    refine iff_of_true ?_ (by simp [hfinishes])
    have hterminal : link.caps.terminal = c.link.caps.terminal :=
      congrArg Findings.terminal haside.findings
    exact h.of_fields (congrArg _ hterminal) (congrArg _ hterminal)
      (congrArg Findings.mnesObserved haside.findings)
  | option _ hfinishes =>
    refine iff_of_true ?_ (by simp [hfinishes])
    exact (Capability.mnesCurrent_of_known (Link.known_receiveTelnetOption _ _ _ _)).mpr
      (Capability.mnesCurrent_refreshed _)
  | subnegotiation _ hfinishes =>
    rw [Link.mnesCurrent_finishSubnegotiation_iff host.application h]
    simp [hfinishes]

/-- In a run of any actions from the beginning, the MNES fact is right in every
state if and only if every payload of the run leaves it right. -/
theorem mnes_current_iff (host : Host β α) (backend : β) (app : α) (actions : List Action) :
    (∀ before, before <+: actions →
      ((initial host backend app).acts host before).terminal.mnes =
        (Capability.flagsMnes ((initial host backend app).acts host before).terminal.mttsFlags ||
          ((initial host backend app).acts host before).link.caps.mnesObserved)) ↔
    ∀ before action, before ++ [action] <+: actions →
      ((initial host backend app).acts host before).KeepsMnes action := by
  have hnew : (initial host backend app).link.caps.MnesCurrent :=
    show false = (decide (0 &&& mttsMnes ≠ 0) || false) by decide
  exact Transition.System.along_iff (P := fun c : Conn β α => c.link.caps.MnesCurrent) hnew
    (fun _ action h => mnesCurrent_act_iff host h action) actions

/-- The peer turns TERMINAL-TYPE and NEW-ENVIRON on and names itself in the MNES
vocabulary. -/
def speakingMnes : Bytes :=
  [255, 251, 24, 255, 251, 39] ++ [255, 250, 39, 0, 0] ++ ascii "CLIENT_NAME" ++ [1] ++
    ascii "Mudlet" ++ [255, 240]

/-- Then it reports MTTS flags without the MNES bit, and the fact is gone. -/
theorem mnes_lost_to_mtts :
    let spoken := (initial Host.granting () ()).feedBytes .granting 1 speakingMnes
    let c := spoken.feedBytes .granting 1 ([255, 250, 24, 0] ++ ascii "MTTS 13" ++ [255, 240])
    (spoken.link.caps.mnesObserved = true ∧ spoken.terminal.mnes = true) ∧
      c.link.caps.enabled .remote Telnet.Opt.newEnviron = true ∧
      c.link.caps.mnesObserved = true ∧ c.terminal.mttsFlags = 13 ∧ c.terminal.mnes = false := by
  decide +kernel

end Conn
