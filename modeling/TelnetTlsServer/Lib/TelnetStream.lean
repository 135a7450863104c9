-- SUMMARY: A Telnet stream between its writer and its reader: what is still to be read, as the writer appends whole tokens and the reader takes bytes.
import TelnetTlsServer.Lib.TelnetGrammar

/-!
# A stream in flight

One end appends whole tokens to a stream, the other takes bytes from its head, at any
pace. `ahead s bytes` is what a reader in the state `s` has still to read. It grows by
exactly what is appended and loses exactly what a byte completes, as long as the bytes
end outside any frame.
-/

namespace TelnetGrammar

/-- The tokens that a reader in the state `s` completes with these bytes. -/
def ahead (s : State) (bytes : List UInt8) : List Token := (parse s bytes).2

/-- The bytes end outside any frame. -/
def Whole (s : State) (bytes : List UInt8) : Prop := (parse s bytes).1 = .data

theorem ahead_cons (s : State) (b : UInt8) (rest : List UInt8) :
    ahead s (b :: rest) = (step s b).2.toList ++ ahead (step s b).1 rest := rfl

theorem whole_cons {s : State} {b : UInt8} {rest : List UInt8} :
    Whole s (b :: rest) ↔ Whole (step s b).1 rest := Iff.rfl

section Append

variable {s : State} {bytes : List UInt8} {tokens : List Token}

theorem Whole.append (h : Whole s bytes) (hwell : ∀ t ∈ tokens, t.WellFormed) :
    Whole s (bytes ++ tokens.flatMap Token.encode) := by
  unfold Whole at h ⊢
  rw [parse_append, h, parse_encodes hwell]

theorem Whole.ahead_append (h : Whole s bytes) (hwell : ∀ t ∈ tokens, t.WellFormed) :
    ahead s (bytes ++ tokens.flatMap Token.encode) = ahead s bytes ++ tokens := by
  unfold Whole at h
  simp only [ahead, parse_append, h, parse_encodes hwell]

end Append

/-! ## Payloads -/

/-- A payload that was begun ends up in a token. -/
theorem exists_subnegotiation {bytes : List UInt8} {s : State} {o : UInt8} {payload : List UInt8}
    (hs : s = .sbData o payload ∨ s = .sbIac o payload) (h : Whole s bytes) :
    ∃ more, .subnegotiation o (payload ++ more) ∈ ahead s bytes := by
  induction bytes generalizing s payload with
  | nil => rcases hs with rfl | rfl <;> cases h
  | cons b rest ih =>
    rw [ahead_cons]
    rw [whole_cons] at h
    -- The payload goes on, with or without this byte.
    have hlater : ∀ added : List UInt8, (step s b).1 = .sbData o (payload ++ added) ∨
        (step s b).1 = .sbIac o (payload ++ added) →
        ∃ more, .subnegotiation o (payload ++ more) ∈
          (step s b).2.toList ++ ahead (step s b).1 rest := by
      intro added hnext
      obtain ⟨more, hmem⟩ := ih hnext h
      exact ⟨added ++ more, List.mem_append_right _ (by rwa [← List.append_assoc])⟩
    rcases hs with rfl | rfl
    · by_cases hiac : b = iac
      · exact hlater [] (.inr (by simp [step, hiac]))
      · exact hlater [b] (.inl (by simp [step, hiac]))
    · by_cases hse : b = se
      · exact ⟨[], by simp [step, hse]⟩
      · by_cases hiac : b = iac
        · exact hlater [iac] (.inl (by simp [step, hiac, show iac ≠ se by decide]))
        · exact hlater [] (.inl (by simp [step, hse, hiac]))

/-! ## Kinds of tokens -/

def Token.isSubnegotiation : Token → Bool
  | subnegotiation _ _ => true
  | data _ | command _ | option _ _ => false

/-- Data, or a command of its own. -/
def Token.isPlain : Token → Bool
  | data _ | command _ => true
  | option _ _ | subnegotiation _ _ => false

theorem Token.wellFormed_of_isPlain {t : Token} (h : t.isPlain = false) : t.WellFormed := by
  cases t with
  | option | subnegotiation => trivial
  | data | command => cases h

theorem Token.isPlain_of_isSubnegotiation {t : Token} (h : t.isSubnegotiation = true) :
    t.isPlain = false := by
  cases t with
  | subnegotiation => rfl
  | data | command | option => cases h

/-! ## Option commands -/

theorem code_of_verb? {b : UInt8} {v : Verb} (h : verb? b = some v) : v.code = b := by
  unfold verb? at h
  split_ifs at h with hwill hwont hdo hdont
  · exact Option.some.inj h ▸ hwill.symm
  · exact Option.some.inj h ▸ hwont.symm
  · exact Option.some.inj h ▸ hdo.symm
  · exact Option.some.inj h ▸ hdont.symm

/-- WILL, WONT, DO or DONT and its option, as bytes. -/
def Token.negotiation? : Token → Option (UInt8 × UInt8)
  | option v o => some (v.code, o)
  | data _ | command _ | subnegotiation _ _ => none

theorem Token.isPlain_of_negotiation? {t : Token} (h : t.negotiation?.isSome = true) :
    t.isPlain = false := by
  cases t with
  | option => rfl
  | data | command | subnegotiation => cases h

/-- The option commands among the tokens. -/
def negotiations (tokens : List Token) : List (UInt8 × UInt8) :=
  tokens.filterMap Token.negotiation?

@[simp] theorem negotiations_nil : negotiations [] = [] := rfl

theorem negotiations_of_isSubnegotiation {tokens : List Token}
    (h : ∀ t ∈ tokens, t.isSubnegotiation = true) : negotiations tokens = [] := by
  refine List.filterMap_eq_nil_iff.mpr fun t ht => ?_
  have hkind := h t ht
  cases t with
  | subnegotiation => rfl
  | data | command | option => cases hkind

theorem negotiations_append (tokens tokens' : List Token) :
    negotiations (tokens ++ tokens') = negotiations tokens ++ negotiations tokens' :=
  List.filterMap_append

/-- Only the byte after a verb completes an option command. -/
theorem negotiations_step {s : State} (h : ∀ v, s ≠ .option v) (b : UInt8) :
    negotiations (step s b).2.toList = [] := by
  cases s with
  | option v => exact absurd rfl (h v)
  | data =>
    simp only [step]
    split <;> rfl
  | iac =>
    simp only [step]
    split
    · rfl
    split
    · rfl
    split <;> rfl
  | sbOption => rfl
  | sbData o payload =>
    simp only [step]
    split <;> rfl
  | sbIac o payload =>
    simp only [step]
    split_ifs <;> rfl

end TelnetGrammar
