import DeskCalculator.Proofs.Decimal.Literal.Reading
import DeskCalculator.Proofs.Token.Lexer

namespace DeskCalculator

namespace Blank

variable {b : Char}

/-- No blank is one of the printed characters of ASCII. -/
theorem not_printed (h : isBlank b = true) : b.toNat ≤ 32 ∨ 127 ≤ b.toNat := by
  simp [isBlank, ranges] at h
  omega

theorem isAlphanum_eq_false (h : isBlank b = true) : b.isAlphanum = false := by
  have hblank := not_printed h
  rw [Bool.eq_false_iff]
  intro ha
  rcases Bool.or_eq_true_iff.mp ha with hletter | hdigit
  · rcases Bool.or_eq_true_iff.mp hletter with hupper | hlower
    · have hbounds : 65 ≤ b.toNat ∧ b.toNat ≤ 90 := of_decide_eq_true hupper
      omega
    · obtain ⟨hlow, hhigh⟩ := Bool.and_eq_true_iff.mp hlower
      have hlow : 97 ≤ b.toNat := of_decide_eq_true hlow
      have hhigh : b.toNat ≤ 122 := of_decide_eq_true hhigh
      omega
  · have hbounds : 48 ≤ b.toNat ∧ b.toNat ≤ 57 := Char.isDigit_iff_toNat.mp hdigit
    omega

/-- A blank is no digit, and no letter of a name. -/
theorem begins_nothing (h : isBlank b = true) :
    b.isDigit = false ∧ Token.isNameLetter b = false ∧ Token.ofCharacter? b = none := by
  obtain ⟨hletter, hdigit⟩ := Bool.or_eq_false_iff.mp (isAlphanum_eq_false h)
  refine ⟨hdigit, (Bool.or_eq_false_iff.mp hletter).2, ?_⟩
  unfold Token.ofCharacter?
  split <;> first | rfl | cases h

theorem ends (h : isBlank b = true) (rest : List Char) : Literal.Ends (b :: rest) := by
  intro c hc
  cases hc
  refine ⟨isAlphanum_eq_false h, ?_, ?_⟩ <;> (rintro rfl; cases h)

end Blank

/-- More text behind does not change what is read, only what is left. -/
theorem Numeral.scan_append {rest : List Char} (he : Literal.Ends rest) (numeral : Numeral)
    (separated : Bool) (cs : List Char) :
    numeral.scan separated (cs ++ rest) = (numeral.scan separated cs).map id (· ++ rest) := by
  induction cs generalizing numeral separated with
  | nil => exact scan_ends he separated
  | cons c cs ih =>
    rw [List.cons_append, scan, scan]
    split
    · rfl
    · rfl
    · exact ih _ _

theorem Decimal.readLiteral_append {rest : List Char} (he : Literal.Ends rest) (c : Char)
    (cs : List Char) :
    readLiteral (c :: cs ++ rest) = (readLiteral (c :: cs)).map id (· ++ rest) := by
  rw [List.cons_append, readLiteral, readLiteral]
  split
  · exact Numeral.scan_append he _ _ _
  · rfl

namespace Token

variable {b : Char}

theorem readNumber_append {rest : List Char} (he : Literal.Ends rest) (c : Char) (cs : List Char) :
    readNumber (c :: cs ++ rest) = (readNumber (c :: cs)).map id (· ++ rest) := by
  rw [readNumber, readNumber, Decimal.readLiteral_append he]
  rfl

theorem takeWhile_append_stop {p : Char → Bool} (hb : p b = false) (cs rest : List Char) :
    (cs ++ b :: rest).takeWhile p = cs.takeWhile p ∧
      (cs ++ b :: rest).dropWhile p = cs.dropWhile p ++ b :: rest := by
  induction cs with
  | nil => simp [hb]
  | cons c cs ih =>
    cases hc : p c with
    | true => simp [hc, ih]
    | false => simp [hc]

theorem openFunction_append (hb : b ≠ '(') (name : String) (cs rest : List Char) :
    openFunction name (cs ++ b :: rest) = (openFunction name cs).map id (· ++ b :: rest) := by
  cases cs with
  | nil => simp [openFunction, hb]
  | cons c cs =>
    by_cases hc : c = '('
    · subst hc
      rfl
    · simp [openFunction, hc]

theorem readFunction_append (hb : Blank.isBlank b = true) (cs rest : List Char) :
    readFunction (cs ++ b :: rest) = (readFunction cs).map id (· ++ b :: rest) := by
  obtain ⟨_, hl, hc⟩ := Blank.begins_nothing hb
  obtain ⟨htake, hdrop⟩ := takeWhile_append_stop hl cs rest
  have hopen : b ≠ '(' := by
    rintro rfl
    cases hb
  rw [readFunction, readFunction, htake, hdrop]
  split
  · rfl
  · split
    · rfl
    · exact openFunction_append hopen _ _ _

/-- What a text gives that begins with a character other than a blank. -/
def word (position : Nat) (c : Char) (cs : List Char) : Except Fault (Option Token) × List Char :=
  if c.isDigit then readNumber (c :: cs)
  else if isNameLetter c then readFunction (c :: cs)
  else
    match ofCharacter? c with
    | some token => (.ok (some token), cs)
    | none => (.error (.badCharacterAt c position), cs)

theorem next_word {c : Char} (hc : Blank.isBlank c = false) (position : Nat) (cs : List Char) :
    next position (c :: cs) = word position c cs := by
  rw [next, word, hc]
  rfl

theorem next_blank (hb : Blank.isBlank b = true) (position : Nat) (cs : List Char) :
    next position (b :: cs) = next (position + 1) cs := by
  obtain ⟨hd, hl, hc⟩ := Blank.begins_nothing hb
  rw [next, hd, hl, hc, hb]
  rfl

theorem next_blanks {w : List Char} (hw : ∀ c ∈ w, Blank.isBlank c = true) (position : Nat)
    (rest : List Char) : next position (w ++ rest) = next (position + w.length) rest := by
  induction w generalizing position with
  | nil => rfl
  | cons b w ih =>
    obtain ⟨hb, hw⟩ := List.forall_mem_cons.mp hw
    rw [List.cons_append, next_blank hb, ih hw, List.length_cons, Nat.add_right_comm,
      Nat.add_assoc]

theorem word_append (hb : Blank.isBlank b = true) (position : Nat) (c : Char)
    (cs rest : List Char) :
    word position c (cs ++ b :: rest) = (word position c cs).map id (· ++ b :: rest) := by
  unfold word
  split
  · exact readNumber_append (Blank.ends hb rest) c cs
  · split
    · exact readFunction_append hb (c :: cs) rest
    · split <;> rfl

theorem readNumber_ne_none (cs : List Char) : (readNumber cs).1 ≠ .ok none := by
  change Except.map (fun x => some (number x)) (Decimal.readLiteral cs).1 ≠ _
  cases (Decimal.readLiteral cs).1 <;> simp [Except.map]

theorem openFunction_ne_none (name : String) (cs : List Char) :
    (openFunction name cs).1 ≠ .ok none := by
  unfold openFunction
  split <;> simp

theorem word_ne_none (position : Nat) (c : Char) (cs : List Char) :
    (word position c cs).1 ≠ .ok none := by
  unfold word
  split
  · exact readNumber_ne_none _
  · split
    · rename_i hl
      rw [readFunction, List.takeWhile_cons, if_pos hl]
      split
      · rename_i he
        cases he
      · split
        · simp
        · exact openFunction_ne_none _ _
    · split <;> simp

/-- Only where there is nothing but blanks there is no token. -/
theorem blanks_of_next {position : Nat} {cs : List Char} (h : (next position cs).1 = .ok none) :
    ∀ c ∈ cs, Blank.isBlank c = true := by
  induction cs generalizing position with
  | nil => exact List.forall_mem_nil _
  | cons c cs ih =>
    cases hc : Blank.isBlank c with
    | true =>
      rw [next_blank hc] at h
      exact List.forall_mem_cons.mpr ⟨hc, ih h⟩
    | false =>
      rw [next_word hc] at h
      exact absurd h (word_ne_none position c cs)

theorem next_append (hb : Blank.isBlank b = true) {position : Nat} {cs : List Char}
    (h : (next position cs).1 ≠ .ok none) (rest : List Char) :
    next position (cs ++ b :: rest) = (next position cs).map id (· ++ b :: rest) := by
  induction cs generalizing position with
  | nil => exact absurd rfl h
  | cons c cs ih =>
    cases hc : Blank.isBlank c with
    | true =>
      rw [next_blank hc] at h
      rw [List.cons_append, next_blank hc, next_blank hc, ih h]
    | false => rw [List.cons_append, next_word hc, next_word hc, word_append hb]

/-- A fault of a literal does not tell a position. -/
theorem shift_of_ofLiteral {fault : Fault} (h : Outcome.OfLiteral fault) (distance : Nat) :
    fault.shift distance = fault := by
  cases fault <;> first | rfl | cases h

theorem readNumber_shift {c : Char} (hc : c.isDigit = true) (cs : List Char) (distance : Nat) :
    (readNumber (c :: cs)).map (Except.mapError (Fault.shift distance)) id =
      readNumber (c :: cs) := by
  have hy := Decimal.readLiteral_yields hc cs
  rw [readNumber]
  cases hr : Decimal.readLiteral (c :: cs) with
  | mk value rest =>
    rw [hr] at hy
    cases value with
    | ok x => rfl
    | error fault =>
      change (Except.error (fault.shift distance), rest) = (Except.error fault, rest)
      rw [shift_of_ofLiteral hy]

theorem readFunction_shift (cs : List Char) (distance : Nat) :
    (readFunction cs).map (Except.mapError (Fault.shift distance)) id = readFunction cs := by
  unfold readFunction
  split
  · rfl
  · split
    · rfl
    · unfold openFunction
      split <;> rfl

theorem word_shift (position distance : Nat) (c : Char) (cs : List Char) :
    word (position + distance) c cs =
      (word position c cs).map (Except.mapError (Fault.shift distance)) id := by
  unfold word
  split
  · rename_i hc
    exact (readNumber_shift hc cs distance).symm
  · split
    · exact (readFunction_shift _ distance).symm
    · split <;> rfl

theorem next_shift (position distance : Nat) (cs : List Char) :
    next (position + distance) cs =
      (next position cs).map (Except.mapError (Fault.shift distance)) id := by
  induction cs generalizing position with
  | nil => rfl
  | cons c cs ih =>
    cases hc : Blank.isBlank c with
    | true => rw [next_blank hc, next_blank hc, Nat.add_right_comm, ih]
    | false => rw [next_word hc, next_word hc, word_shift]

theorem readFrom_blanks {w : List Char} (hw : ∀ c ∈ w, Blank.isBlank c = true) (position : Nat)
    (rest : List Char) : readFrom position (w ++ rest) = readFrom (position + w.length) rest := by
  have hn := next_blanks hw position rest
  cases hr : next (position + w.length) rest with
  | mk result left =>
    rw [hr] at hn
    match result with
    | .error fault => rw [readFrom_error hn, readFrom_error hr]
    | .ok none => rw [readFrom_none hn, readFrom_none hr]
    | .ok (some token) =>
      have hlt := length_next_lt hr
      have hp : position + ((w ++ rest).length - left.length) =
          position + w.length + (rest.length - left.length) := by
        rw [List.length_append]
        omega
      rw [readFrom_some hn, readFrom_some hr, hp]

theorem readFrom_shift (position distance : Nat) (cs : List Char) :
    readFrom (position + distance) cs =
      (readFrom position cs).mapError (Fault.shift distance) := by
  induction position, cs using readFrom.induct with
  | case1 position cs fault rest hr =>
    have hs : next (position + distance) cs = (.error (fault.shift distance), rest) := by
      rw [next_shift, hr]
      rfl
    rw [readFrom_error hr, readFrom_error hs]
    rfl
  | case2 position cs rest hr =>
    have hs : next (position + distance) cs = (.ok none, rest) := by
      rw [next_shift, hr]
      rfl
    rw [readFrom_none hr, readFrom_none hs]
    rfl
  | case3 position cs token rest hr ih =>
    have hs : next (position + distance) cs = (.ok (some token), rest) := by
      rw [next_shift, hr]
      rfl
    rw [readFrom_some hr, readFrom_some hs, Nat.add_right_comm, ih]
    cases readFrom (position + (cs.length - rest.length)) rest <;> rfl

/-- The tokens in front of a blank, and those behind it. -/
theorem readFrom_append (hb : Blank.isBlank b = true) (position : Nat) (cs rest : List Char) :
    readFrom position (cs ++ b :: rest) =
      readFrom position cs >>= fun tokens =>
        (tokens ++ ·) <$> readFrom (position + (cs.length + 1)) rest := by
  induction position, cs using readFrom.induct with
  | case1 position cs fault left hr =>
    have hne : (next position cs).1 ≠ .ok none := by simp [hr]
    have hn : next position (cs ++ b :: rest) = (.error fault, left ++ b :: rest) := by
      rw [next_append hb hne, hr]
      rfl
    rw [readFrom_error hr, readFrom_error hn]
    rfl
  | case2 position cs left hr =>
    have hw : ∀ c ∈ cs ++ [b], Blank.isBlank c = true := by
      have hcs := blanks_of_next (congrArg Prod.fst hr)
      simpa [or_imp, forall_and, hb] using hcs
    have hs := readFrom_blanks hw position rest
    rw [List.append_assoc, List.length_append] at hs
    change readFrom position (cs ++ b :: rest) = readFrom (position + (cs.length + 1)) rest at hs
    rw [readFrom_none hr, Outcome.ok_bind, hs]
    cases readFrom (position + (cs.length + 1)) rest <;> rfl
  | case3 position cs token left hr ih =>
    have hne : (next position cs).1 ≠ .ok none := by simp [hr]
    have hn : next position (cs ++ b :: rest) = (.ok (some token), left ++ b :: rest) := by
      rw [next_append hb hne, hr]
      rfl
    -- the token takes as many characters as it does without the blank and what follows it
    have hlt := length_next_lt hr
    have hleft : (cs ++ b :: rest).length - (left ++ b :: rest).length =
        cs.length - left.length := by
      simp only [List.length_append]
      omega
    have hrest : position + (cs.length - left.length) + (left.length + 1) =
        position + (cs.length + 1) := by
      omega
    rw [readFrom_some hr, readFrom_some hn, hleft, ih, hrest]
    cases readFrom (position + (cs.length - left.length)) left with
    | error fault => rfl
    | ok tokens => cases readFrom (position + (cs.length + 1)) rest <;> rfl

/-- A run of blanks parts a text as a single one does. -/
theorem readFrom_separated {w : List Char} (hne : w ≠ []) (hw : ∀ c ∈ w, Blank.isBlank c = true)
    (position : Nat) (cs rest : List Char) :
    readFrom position (cs ++ w ++ rest) =
      readFrom position cs >>= fun tokens =>
        (tokens ++ ·) <$> (readFrom position rest).mapError
          (Fault.shift (cs.length + w.length)) := by
  cases w with
  | nil => exact absurd rfl hne
  | cons b w =>
    obtain ⟨hb, hw⟩ := List.forall_mem_cons.mp hw
    have hp : position + (cs.length + 1) + w.length =
        position + (cs.length + (b :: w).length) := by
      rw [List.length_cons]
      omega
    rw [List.append_assoc, List.cons_append, readFrom_append hb, readFrom_blanks hw, hp,
      readFrom_shift]

/-- Blanks part a text: in front of them stand its first tokens, or its first fault; behind them the
other tokens, or the next fault, which has moved with the text if it tells a position. -/
theorem tokenize_separated (first blanks second : String) (hne : blanks ≠ "")
    (hb : ∀ c ∈ blanks.toList, Blank.isBlank c = true) :
    tokenize (first ++ blanks ++ second) =
      match tokenize first, tokenize second with
      | .error fault, _ => .error fault
      | .ok tokens, .ok others => .ok (tokens ++ others)
      | .ok _, .error fault => .error (fault.shift (first.length + blanks.length)) := by
  have hne' : blanks.toList ≠ [] := by
    intro h
    exact hne (String.toList_eq_nil_iff.mp h)
  unfold tokenize
  rw [String.toList_append, String.toList_append, readFrom_separated hne' hb, String.length_toList,
    String.length_toList]
  cases readFrom 0 first.toList with
  | error fault => rfl
  | ok tokens => cases readFrom 0 second.toList <;> rfl

/-- A radix marker with nothing behind it ends at a blank, and the position of a question mark is
told within the whole text. -/
theorem tokenize_separated_marker :
    tokenize ("0x" ++ "\t " ++ "2 ?") = .error (.badCharacterAt '?' 6) := by
  have hfirst : tokenize "0x" = .ok [.number Decimal.zero] := by
    have hn : next 0 ['0', 'x'] = (.ok (some (.number Decimal.zero)), []) := by decide
    exact readFrom_cons hn (readFrom_nil _)
  have hsecond : tokenize "2 ?" = .error (.badCharacterAt '?' 2) := by
    have hn : next 0 ['2', ' ', '?'] = (.ok (some (.number (.whole 2))), [' ', '?']) := by decide
    have hq : next 1 [' ', '?'] = (.error (.badCharacterAt '?' 2), []) := rfl
    change readFrom 0 ['2', ' ', '?'] = _
    rw [readFrom_some hn]
    exact congrArg _ (readFrom_error hq)
  have hb : ∀ c ∈ "\t ".toList, Blank.isBlank c = true := List.all_eq_true.mp (by decide)
  rw [tokenize_separated "0x" "\t " "2 ?" (by decide) hb, hfirst, hsecond]
  rfl

end Token

end DeskCalculator
