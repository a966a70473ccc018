import DeskCalculator.Proofs.Token.Separation

namespace DeskCalculator.Token

/-- A token as it is written; a function name has its parenthesis with it. -/
def spelling : Token → String
  | function name => name ++ "("
  | token => token.text

/-- The tokens that can be written: numbers without a sign, names of one to sixteen small letters,
and the tokens of a single character. -/
def IsWritable : Token → Prop
  | nothing => False
  | number x => x.WellFormed ∧ x.negative = false
  | function name => name ≠ "" ∧ name.length ≤ Fault.nameLimit ∧
      ∀ c ∈ name.toList, isNameLetter c = true
  | parenOpen | parenClose | operator _ | factorial => True

/-- Tokens with a space between each two. -/
def write (tokens : List Token) : String := " ".intercalate (tokens.map spelling)

theorem isDigit_of_isNameLetter {c : Char} (h : isNameLetter c = true) : c.isDigit = false := by
  simp only [isNameLetter, Bool.and_eq_true, decide_eq_true_eq, Char.le_def,
    UInt32.le_iff_toNat_le] at h
  simp only [Char.isDigit, Bool.and_eq_false_iff, decide_eq_false_iff_not, ge_iff_le,
    UInt32.le_iff_toNat_le]
  change 97 ≤ c.toNat ∧ c.toNat ≤ 122 at h
  change ¬ 48 ≤ c.toNat ∨ ¬ c.toNat ≤ 57
  omega

theorem next_function {name : String} (h : (function name).IsWritable) (position : Nat)
    (rest : List Char) :
    next position (name.toList ++ '(' :: rest) = (.ok (some (function name)), rest) := by
  obtain ⟨hne, hlen, hl⟩ := h
  have htake : (name.toList ++ '(' :: rest).takeWhile isNameLetter = name.toList := by
    rw [List.takeWhile_append_of_pos hl]
    exact List.append_nil _
  have hdrop : (name.toList ++ '(' :: rest).dropWhile isNameLetter = '(' :: rest := by
    rw [List.dropWhile_append_of_pos hl]
    rfl
  have hne' : name.toList.isEmpty = false := by
    rw [List.isEmpty_eq_false_iff]
    intro h
    exact hne (String.toList_eq_nil_iff.mp h)
  have hread : readFunction (name.toList ++ '(' :: rest) = (.ok (some (function name)), rest) := by
    rw [readFunction, htake, hdrop, hne', if_neg Bool.false_ne_true, String.length_toList,
      if_neg (Nat.not_lt.mpr hlen), String.ofList_toList]
    rfl
  cases hc : name.toList with
  | nil =>
    rw [hc] at hne'
    cases hne'
  | cons c cs =>
    rw [hc] at hl hread
    have hletter := hl c List.mem_cons_self
    rw [List.cons_append] at hread ⊢
    rw [next, isDigit_of_isNameLetter hletter, if_neg Bool.false_ne_true, if_pos hletter, hread]

/-- A token is read back wherever it stands by itself. -/
theorem readFrom_spelling {token : Token} (h : token.IsWritable) (position : Nat) :
    readFrom position token.spelling.toList = .ok [token] := by
  cases token with
  | nothing => exact absurd h id
  | number x =>
    obtain ⟨hx, hn⟩ := h
    have hr := readFrom_unsigned hx position
    rw [Decimal.unsigned_of_not_negative hn] at hr
    change readFrom position (String.ofList x.characters).toList = _
    rw [String.toList_ofList, hr]
  | function name =>
    rw [spelling, String.toList_append]
    exact readFrom_cons (next_function h position []) (readFrom_nil _)
  | operator op =>
    have hn : next position (spelling (.operator op)).toList = (.ok (some (operator op)), []) := by
      cases op <;> rfl
    exact readFrom_cons hn (readFrom_nil _)
  | parenOpen | parenClose | factorial => exact readFrom_cons rfl (readFrom_nil _)

theorem readFrom_write {tokens : List Token} (h : ∀ token ∈ tokens, token.IsWritable)
    (position : Nat) : readFrom position (write tokens).toList = .ok tokens := by
  induction tokens generalizing position with
  | nil => exact readFrom_nil position
  | cons token tokens ih =>
    obtain ⟨ht, hts⟩ := List.forall_mem_cons.mp h
    cases tokens with
    | nil => exact readFrom_spelling ht position
    | cons other tokens =>
      have hw : (write (token :: other :: tokens)).toList =
          token.spelling.toList ++ ' ' :: (write (other :: tokens)).toList := by
        simp [write, String.intercalate_cons_cons]
      rw [hw, readFrom_append rfl, readFrom_spelling ht, Outcome.ok_bind, ih hts]
      rfl

/-- What is written of writable tokens has just these tokens. -/
theorem tokenize_write {tokens : List Token} (h : ∀ token ∈ tokens, token.IsWritable) :
    tokenize (write tokens) = .ok tokens :=
  readFrom_write h 0

/-- A name of sixteen letters, and a number whose forty digits all are nines. -/
theorem tokenize_write_longest :
    tokenize "abcdefghijklmnop( 99999999999999999999.99999999999999999999 ) !" =
      .ok [function "abcdefghijklmnop", number ⟨false, List.replicate 40 9⟩, parenClose,
        factorial] := by
  have hname : (function "abcdefghijklmnop").IsWritable :=
    ⟨by decide, by decide, List.all_eq_true.mp (by decide)⟩
  have hnines : (number ⟨false, List.replicate 40 9⟩).IsWritable :=
    ⟨⟨rfl, by decide, by decide⟩, rfl⟩
  have hw : write [function "abcdefghijklmnop", number ⟨false, List.replicate 40 9⟩, parenClose,
      factorial] = "abcdefghijklmnop( 99999999999999999999.99999999999999999999 ) !" := by decide
  rw [← hw]
  refine tokenize_write ?_
  simp only [List.forall_mem_cons]
  exact ⟨hname, hnines, trivial, trivial, List.forall_mem_nil _⟩

end DeskCalculator.Token
