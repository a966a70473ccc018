import DeskCalculator.Proofs.Decimal.Literal
import DeskCalculator.Token.Lexer

namespace DeskCalculator.Token

open Outcome (Meets)

/-- Numbers in tokens are well-formed. -/
def WellFormed : Token → Prop
  | number x => x.WellFormed
  | _ => True

theorem ofCharacter_wellFormed {c : Char} {t : Token} (h : ofCharacter? c = some t) :
    t.WellFormed := by
  unfold ofCharacter? at h
  split at h <;> cases h <;> exact trivial

theorem readNumber_meets {c : Char} (hc : c.isDigit = true) (cs : List Char) :
    Meets (fun token => ∀ t ∈ token, t.WellFormed) (readNumber (c :: cs)).1 := by
  refine ((Decimal.readLiteral_yields hc cs).mono fun _ h => h.ofInput).map ?_
  intro x hx
  exact Outcome.forall_mem_some hx

theorem readFunction_meets (cs : List Char) :
    Meets (fun token => ∀ t ∈ token, t.WellFormed) (readFunction cs).1 := by
  unfold readFunction
  split
  · exact Outcome.forall_mem_none _
  · split
    · exact trivial
    · unfold openFunction
      split
      · exact Outcome.forall_mem_some trivial
      · exact trivial

/-- Literals are read only where a digit stands, so that there is always one. -/
theorem next_meets (position : Nat) (cs : List Char) :
    Meets (fun token => ∀ t ∈ token, t.WellFormed) (next position cs).1 := by
  induction cs generalizing position with
  | nil => exact Outcome.forall_mem_none _
  | cons c cs ih =>
    unfold next
    split
    · rename_i hc
      exact readNumber_meets hc cs
    · split
      · exact readFunction_meets _
      · split
        · rename_i token ht
          exact Outcome.forall_mem_some (ofCharacter_wellFormed ht)
        · split
          · exact ih _
          · exact trivial

theorem readFrom_error {position : Nat} {cs rest : List Char} {fault : Fault}
    (h : next position cs = (.error fault, rest)) : readFrom position cs = .error fault := by
  rw [readFrom, h]

theorem readFrom_none {position : Nat} {cs rest : List Char}
    (h : next position cs = (.ok none, rest)) : readFrom position cs = .ok [] := by
  rw [readFrom, h]

theorem readFrom_some {position : Nat} {cs rest : List Char} {token : Token}
    (h : next position cs = (.ok (some token), rest)) :
    readFrom position cs =
      (token :: ·) <$> readFrom (position + (cs.length - rest.length)) rest := by
  rw [readFrom, h]
  rfl

theorem readFrom_meets (position : Nat) (cs : List Char) :
    Meets (fun tokens => ∀ t ∈ tokens, t.WellFormed) (readFrom position cs) := by
  induction position, cs using readFrom.induct with
  | case1 position cs fault rest hr =>
    have hn := next_meets position cs
    rw [hr] at hn
    rw [readFrom_error hr]
    exact hn
  | case2 position cs rest hr =>
    rw [readFrom_none hr]
    intro t ht
    cases ht
  | case3 position cs token rest hr ih =>
    have hn := next_meets position cs
    rw [hr] at hn
    rw [readFrom_some hr]
    refine ih.map ?_
    intro tokens hts
    exact List.forall_mem_cons.mpr ⟨hn token rfl, hts⟩

theorem tokenize_meets (text : String) :
    Meets (fun tokens => ∀ t ∈ tokens, t.WellFormed) (tokenize text) :=
  readFrom_meets 0 text.toList

theorem readFrom_nil (position : Nat) : readFrom position [] = .ok [] := readFrom_none rfl

/-- A token and the tokens of the text behind it. -/
theorem readFrom_cons {position : Nat} {cs rest : List Char} {token : Token} {tokens : List Token}
    (h : next position cs = (.ok (some token), rest))
    (hr : readFrom (position + (cs.length - rest.length)) rest = .ok tokens) :
    readFrom position cs = .ok (token :: tokens) := by
  rw [readFrom_some h, hr]
  rfl

theorem readFrom_unsigned {x : Decimal} (hx : x.WellFormed) (position : Nat) :
    readFrom position x.unsigned.characters = .ok [.number x.unsigned] := by
  obtain ⟨c, cs, hcs, hc⟩ := Decimal.head_unsigned hx
  have hread := Decimal.readLiteral_unsigned hx
  have hnext : next position x.unsigned.characters = (.ok (some (.number x.unsigned)), []) := by
    rw [hcs] at hread ⊢
    rw [next, if_pos hc, readNumber, hread]
    rfl
  exact readFrom_cons hnext (readFrom_nil _)

/-- The minus sign of a number is a token of its own. -/
theorem tokenize_text {x : Decimal} (hx : x.WellFormed) :
    tokenize x.text =
      .ok (if x.negative then [.operator .sub, .number x.unsigned] else [.number x]) := by
  rw [tokenize, Decimal.text, String.toList_ofList, Decimal.characters_eq_unsigned]
  cases hn : x.negative with
  | true =>
    have hnext : next 0 ('-' :: x.unsigned.characters) =
        (.ok (some (.operator .sub)), x.unsigned.characters) := rfl
    exact readFrom_cons hnext (readFrom_unsigned hx _)
  | false =>
    rw [if_neg Bool.false_ne_true, List.nil_append, readFrom_unsigned hx,
      Decimal.unsigned_of_not_negative hn]
    rfl

end DeskCalculator.Token
