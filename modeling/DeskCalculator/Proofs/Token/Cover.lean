import DeskCalculator.Cursor
import DeskCalculator.Proofs.Token.Spelling

namespace DeskCalculator

namespace Cursor

variable {α β : Type} {cursor after : Cursor α} {reader : List α → β × List α} {result : β}

/-- A reader that leaves the end of the items takes the cursor on, as far as it has read. -/
theorem run_suffix (hp : cursor.position ≤ cursor.items.length)
    (hs : (reader cursor.rest).2 <:+ cursor.rest) (h : cursor.run reader = (result, after)) :
    after.items = cursor.items ∧ cursor.position ≤ after.position ∧
      after.position ≤ cursor.items.length ∧
      after.position + (reader cursor.rest).2.length = cursor.items.length := by
  obtain ⟨rfl, rfl⟩ := Prod.mk.inj h
  have hl := hs.length_le
  have hrest : cursor.rest.length = cursor.items.length - cursor.position := List.length_drop
  refine ⟨rfl, ?_, Nat.sub_le _ _, ?_⟩
  · simp only
    omega
  · exact Nat.sub_add_cancel (by omega)

end Cursor

namespace Token

variable {c : Char} {cs rest w s : List Char} {token : Token} {tokens : List Token}
  {position p : Nat} {fault : Fault}

/-- The characters that a token was read from, in front of what is left. -/
def Spans (token : Token) (s rest : List Char) : Prop :=
  match token with
  | number x => Decimal.readLiteral (s ++ rest) = (.ok x, rest)
  | token => token.IsWritable ∧ s = token.spelling.toList

/-- No token begins with the character, and it is no blank. -/
structure IsUnknown (c : Char) : Prop where
  not_digit : c.isDigit = false
  not_letter : isNameLetter c = false
  not_symbol : ofCharacter? c = none
  not_blank : Blank.isBlank c = false

theorem spans_symbol (h : ofCharacter? c = some token) : token.Spans [c] rest := by
  unfold ofCharacter? at h
  split at h <;> cases h
  all_goals exact ⟨trivial, rfl⟩

theorem spans_function (h : readFunction cs = (.ok (some token), rest)) :
    ∃ s, cs = s ++ rest ∧ s ≠ [] ∧ token.Spans s rest := by
  unfold readFunction at h
  split at h
  · simp at h
  · rename_i hne
    split at h
    · simp at h
    · rename_i hlen
      unfold openFunction at h
      split at h
      · rename_i behind hdrop
        cases h
        have hcs := cs.takeWhile_append_dropWhile (p := isNameLetter)
        rw [hdrop] at hcs
        have hspelling : (function (String.ofList (cs.takeWhile isNameLetter))).spelling.toList =
            cs.takeWhile isNameLetter ++ ['('] := by
          simp [spelling]
        refine ⟨cs.takeWhile isNameLetter ++ ['('], by simp [hcs], by simp, ⟨?_, ?_, ?_⟩,
          hspelling.symm⟩
        · simpa [String.ext_iff] using hne
        · simpa using hlen
        · simpa using fun c hc => List.mem_takeWhile_imp hc
      · simp at h

theorem spans_number (h : readNumber cs = (.ok (some token), rest)) :
    ∃ s, cs = s ++ rest ∧ s ≠ [] ∧ token.Spans s rest := by
  unfold readNumber at h
  cases hr : Decimal.readLiteral cs with
  | mk outcome left =>
    rw [hr] at h
    cases outcome with
    | error fault => cases h
    | ok x =>
      cases h
      obtain ⟨read, _, rfl, _⟩ := Decimal.readLiteral_spells hr
      refine ⟨read, rfl, ?_, hr⟩
      rintro rfl
      exact absurd (Decimal.length_readLiteral_lt hr) (Nat.lt_irrefl _)

/-- What a token was read from: blanks, and then its own characters. -/
theorem spans_next (h : next position cs = (.ok (some token), rest)) :
    ∃ w s, cs = w ++ s ++ rest ∧ (∀ c ∈ w, Blank.isBlank c = true) ∧ s ≠ [] ∧
      token.Spans s rest := by
  induction cs generalizing position with
  | nil => cases h
  | cons c cs ih =>
    cases hc : Blank.isBlank c with
    | true =>
      rw [next_blank hc] at h
      obtain ⟨w, s, rfl, hw, hs⟩ := ih h
      exact ⟨c :: w, s, rfl, List.forall_mem_cons.mpr ⟨hc, hw⟩, hs⟩
    | false =>
      rw [next_word hc] at h
      unfold word at h
      suffices hs : ∃ s, c :: cs = s ++ rest ∧ s ≠ [] ∧ token.Spans s rest by
        obtain ⟨s, hs⟩ := hs
        exact ⟨[], s, hs.1, by simp, hs.2⟩
      split at h
      · exact spans_number h
      · split at h
        · exact spans_function h
        · split at h
          · rename_i ht
            cases h
            exact ⟨[c], rfl, by simp, spans_symbol ht⟩
          · cases h

/-- A token is read back from its own characters. -/
theorem Spans.next (h : token.Spans s rest) (hne : s ≠ []) (position : Nat) :
    next position (s ++ rest) = (.ok (some token), rest) := by
  cases token with
  | nothing => exact absurd h.1 id
  | number x =>
    have hr : Decimal.readLiteral (s ++ rest) = (.ok x, rest) := h
    cases s with
    | nil => exact absurd rfl hne
    | cons c s =>
      cases hc : c.isDigit with
      | true =>
        rw [List.cons_append] at hr ⊢
        rw [Token.next, if_pos hc, readNumber, hr]
        rfl
      | false =>
        rw [List.cons_append, Decimal.readLiteral_of_not_isDigit hc] at hr
        cases hr
  | function name =>
    obtain ⟨hw, rfl⟩ := h
    simpa [spelling] using next_function hw position rest
  | operator op =>
    obtain ⟨_, rfl⟩ := h
    cases op <;> rfl
  | parenOpen | parenClose | factorial =>
    obtain ⟨_, rfl⟩ := h
    rfl

/-- Tokens take up a text as far as some rest. Between them, before the first and behind the last
there may be blanks. -/
inductive Covers : List Token → List Char → List Char → Prop where
  | blanks {w rest : List Char} (blank : ∀ c ∈ w, Blank.isBlank c = true) :
      Covers [] (w ++ rest) rest
  | token {w s cs rest : List Char} {token : Token} {tokens : List Token}
      (blank : ∀ c ∈ w, Blank.isBlank c = true) (nonempty : s ≠ []) (spans : token.Spans s cs)
      (behind : Covers tokens cs rest) : Covers (token :: tokens) (w ++ s ++ cs) rest

theorem Covers.suffix (h : Covers tokens cs rest) : ∃ read, cs = read ++ rest := by
  induction h with
  | blanks => exact ⟨_, rfl⟩
  | token _ _ _ _ ih =>
    obtain ⟨read, rfl⟩ := ih
    exact ⟨_, (List.append_assoc _ _ _).symm⟩

/-- Tokens that cover a text are read, and then the tokens of the rest. -/
theorem Covers.readFrom (h : Covers tokens cs rest) (position : Nat) :
    readFrom position cs =
      (tokens ++ ·) <$> readFrom (position + (cs.length - rest.length)) rest := by
  induction h generalizing position with
  | @blanks w rest blank =>
    rw [readFrom_blanks blank, List.length_append, Nat.add_sub_cancel]
    cases Token.readFrom (position + w.length) rest <;> rfl
  | @token w s cs rest token tokens blank nonempty spans behind ih =>
    obtain ⟨read, rfl⟩ := behind.suffix
    have hp : position + w.length + ((s ++ (read ++ rest)).length - (read ++ rest).length) +
        ((read ++ rest).length - rest.length) =
        position + ((w ++ (s ++ (read ++ rest))).length - rest.length) := by
      simp only [List.length_append]
      omega
    rw [List.append_assoc, readFrom_blanks blank, readFrom_some (spans.next nonempty _), ih, hp]
    cases Token.readFrom (position + ((w ++ (s ++ (read ++ rest))).length - rest.length)) rest <;>
      rfl

theorem covers_of_readFrom (h : readFrom position cs = .ok tokens) : Covers tokens cs [] := by
  induction position, cs using readFrom.induct generalizing tokens with
  | case1 position cs fault rest hr =>
    rw [readFrom_error hr] at h
    cases h
  | case2 position cs rest hr =>
    rw [readFrom_none hr] at h
    cases h
    have hb : Covers [] (cs ++ []) [] := .blanks (blanks_of_next (congrArg Prod.fst hr))
    simpa using hb
  | case3 position cs token rest hr ih =>
    rw [readFrom_some hr] at h
    obtain ⟨tokens, hts, rfl⟩ := Outcome.map_ok h
    obtain ⟨w, s, rfl, hw, hne, hs⟩ := spans_next hr
    exact .token hw hne hs (ih hts)

theorem readNumber_ne_unknown (h : c.isDigit = true) (d : Char) :
    (readNumber (c :: cs)).1 ≠ .error (.badCharacterAt d p) := by
  intro hr
  have hy := Decimal.readLiteral_yields h cs
  exact hy.of_error (Outcome.map_error hr)

theorem readFunction_ne_unknown (d : Char) :
    (readFunction cs).1 ≠ .error (.badCharacterAt d p) := by
  unfold readFunction
  split
  · simp
  · split
    · simp
    · unfold openFunction
      split <;> simp

/-- An unknown character stands behind blanks alone, and is read itself. -/
theorem unknown_of_next (h : next position cs = (.error (.badCharacterAt c p), rest)) :
    ∃ w, cs = w ++ c :: rest ∧ (∀ b ∈ w, Blank.isBlank b = true) ∧ p = position + w.length ∧
      IsUnknown c := by
  induction cs generalizing position with
  | nil => cases h
  | cons d cs ih =>
    cases hd : Blank.isBlank d with
    | true =>
      rw [next_blank hd] at h
      obtain ⟨w, rfl, hw, rfl, hc⟩ := ih h
      refine ⟨d :: w, rfl, List.forall_mem_cons.mpr ⟨hd, hw⟩, ?_, hc⟩
      rw [List.length_cons]
      omega
    | false =>
      rw [next_word hd] at h
      unfold word at h
      split at h
      · rename_i hdigit
        exact absurd (congrArg Prod.fst h) (readNumber_ne_unknown hdigit c)
      · rename_i hdigit
        split at h
        · exact absurd (congrArg Prod.fst h) (readFunction_ne_unknown c)
        · rename_i hletter
          split at h
          · cases h
          · rename_i hsymbol
            cases h
            exact ⟨[], rfl, by simp, rfl, by simpa using hdigit, by simpa using hletter, hsymbol,
              hd⟩

theorem IsUnknown.next (h : IsUnknown c) (position : Nat) (rest : List Char) :
    next position (c :: rest) = (.error (.badCharacterAt c position), rest) := by
  rw [next_word h.not_blank, word, h.not_digit, h.not_letter, h.not_symbol]
  rfl

theorem covers_of_unknown (h : readFrom position cs = .error (.badCharacterAt c p)) :
    ∃ tokens read behind, cs = read ++ c :: behind ∧ p = position + read.length ∧
      Covers tokens cs (c :: behind) ∧ IsUnknown c := by
  induction position, cs using readFrom.induct with
  | case1 position cs fault rest hr =>
    rw [readFrom_error hr] at h
    cases h
    obtain ⟨w, rfl, hw, rfl, hc⟩ := unknown_of_next hr
    exact ⟨[], w, rest, rfl, rfl, .blanks hw, hc⟩
  | case2 position cs rest hr =>
    rw [readFrom_none hr] at h
    cases h
  | case3 position cs token rest hr ih =>
    rw [readFrom_some hr] at h
    obtain ⟨tokens, read, behind, rfl, rfl, hts, hc⟩ := ih (Outcome.map_error h)
    obtain ⟨w, s, rfl, hw, hne, hs⟩ := spans_next hr
    refine ⟨token :: tokens, w ++ s ++ read, behind, by simp, ?_, .token hw hne hs hts, hc⟩
    simp only [List.length_append]
    omega

theorem readFunction_suffix (cs : List Char) : (readFunction cs).2 <:+ cs := by
  have hdrop := cs.dropWhile_suffix isNameLetter
  unfold readFunction
  split
  · exact List.suffix_rfl
  · split
    · exact hdrop
    · unfold openFunction
      split
      · rename_i behind he
        rw [he] at hdrop
        exact (List.suffix_cons '(' behind).trans hdrop
      · exact hdrop

/-- What is left of a text is its end, be it after a token, a fault or nothing. -/
theorem next_suffix (position : Nat) (cs : List Char) : (next position cs).2 <:+ cs := by
  induction cs generalizing position with
  | nil => exact List.suffix_rfl
  | cons c cs ih =>
    cases hc : Blank.isBlank c with
    | true =>
      rw [next_blank hc]
      exact (ih _).trans (List.suffix_cons c cs)
    | false =>
      rw [next_word hc]
      unfold word
      split
      · exact Decimal.readLiteral_suffix (c :: cs)
      · split
        · exact readFunction_suffix _
        · split
          · exact List.suffix_cons c cs
          · exact List.suffix_cons c cs

/-- Each call takes a cursor on within its text: past a token, or past an unknown character, which
stands at the position that is told. -/
theorem run_next {cursor after : Cursor Char} {result : Except Fault (Option Token)}
    (hp : cursor.position ≤ cursor.items.length)
    (h : cursor.run (next cursor.position) = (result, after)) :
    after.items = cursor.items ∧ cursor.position ≤ after.position ∧
      after.position ≤ cursor.items.length ∧
      (∀ token, result = .ok (some token) → cursor.position < after.position) ∧
      (∀ c p, result = .error (.badCharacterAt c p) → cursor.position ≤ p ∧
        after.position = p + 1 ∧ cursor.items[p]? = some c) := by
  obtain ⟨hitems, hle, hend, hleft⟩ := Cursor.run_suffix hp (next_suffix _ _) h
  have hresult : (next cursor.position cursor.rest).1 = result := congrArg Prod.fst h
  have hlength : cursor.rest.length = cursor.items.length - cursor.position := List.length_drop
  cases hn : next cursor.position cursor.rest with
  | mk outcome left =>
    rw [hn] at hresult hleft
    simp only at hresult hleft
    subst hresult
    refine ⟨hitems, hle, hend, ?_, ?_⟩
    · rintro token rfl
      have hlt := length_next_lt hn
      omega
    · rintro c p rfl
      obtain ⟨w, hw, _, rfl, _⟩ := unknown_of_next hn
      have hrest := congrArg List.length hw
      simp only [List.length_append, List.length_cons] at hrest
      refine ⟨by omega, by omega, ?_⟩
      rw [← List.getElem?_drop]
      change cursor.rest[w.length]? = some c
      simp [hw]

/-- One round of attempts at the front of a text: at a number, at a function and at a single
character. An attempt that finds nothing leaves it to the next one to go on with what is left.
Nothing comes of a blank. -/
def attempt (position : Nat) (cs : List Char) :
    Option (Except Fault (Option Token)) × List Char :=
  match readNumber cs with
  | (.error .noInput, rest) =>
    match readFunction rest with
    | (.ok none, []) => (some (.ok none), [])
    | (.ok none, c :: behind) =>
      match ofCharacter? c with
      | some token => (some (.ok (some token)), behind)
      | none =>
        if Blank.isBlank c then (none, behind)
        else
          let read := cs.length - behind.length
          (some (.error (.badCharacterAt c (position + read - 1))), behind)
    | (result, behind) => (some result, behind)
  | (result, rest) => (some result, rest)

/-- The tokens of a text, unless there are more rounds to it than these. -/
def rounds : Nat → Nat → List Char → Option (Except Fault (List Token))
  | 0, _, _ => none
  | count + 1, position, cs =>
    match attempt position cs with
    | (none, rest) => rounds count (position + (cs.length - rest.length)) rest
    | (some (.error fault), _) => some (.error fault)
    | (some (.ok none), _) => some (.ok [])
    | (some (.ok (some token)), rest) =>
      (rounds count (position + (cs.length - rest.length)) rest).map ((token :: ·) <$> ·)

theorem attempt_nil (position : Nat) : attempt position [] = (some (.ok none), []) := rfl

theorem readNumber_missed (hc : c.isDigit = false) (cs : List Char) :
    readNumber (c :: cs) = (.error .noInput, c :: cs) := by
  rw [readNumber, Decimal.readLiteral_of_not_isDigit hc]
  rfl

theorem readNumber_ne_missed (hc : c.isDigit = true) :
    readNumber (c :: cs) ≠ (.error .noInput, rest) := by
  intro h
  have hy := Decimal.readLiteral_yields hc cs
  exact hy.of_error (Outcome.map_error (congrArg Prod.fst h))

theorem readFunction_missed (hc : isNameLetter c = false) (cs : List Char) :
    readFunction (c :: cs) = (.ok none, c :: cs) := by
  simp [readFunction, hc]

theorem readFunction_ne_missed (hc : isNameLetter c = true) :
    readFunction (c :: cs) ≠ (.ok none, rest) := by
  intro h
  have hw := word_ne_none 0 c cs
  rw [word, if_neg (by simp [isDigit_of_isNameLetter hc]), if_pos hc, h] at hw
  exact hw rfl

/-- A round reads a blank. -/
theorem attempt_blank (hb : Blank.isBlank c = true) (position : Nat) (cs : List Char) :
    attempt position (c :: cs) = (none, cs) := by
  obtain ⟨hd, hl, hs⟩ := Blank.begins_nothing hb
  simp [attempt, readNumber_missed hd, readFunction_missed hl, hs, hb]

/-- Anything else a round reads as if there were no attempts that fail. -/
theorem attempt_word (hb : Blank.isBlank c = false) (position : Nat) (cs : List Char) :
    attempt position (c :: cs) = (word position c cs).map some id := by
  cases hd : c.isDigit with
  | true =>
    rw [word, if_pos hd, attempt]
    split
    · rename_i hr
      exact absurd hr (readNumber_ne_missed hd)
    · rename_i hr
      simp [hr]
  | false =>
    rw [word, hd, if_neg Bool.false_ne_true, attempt, readNumber_missed hd]
    cases hl : isNameLetter c with
    | true =>
      simp only [if_true]
      split
      · rename_i hr
        exact absurd hr (readFunction_ne_missed hl)
      · rename_i hr
        exact absurd hr (readFunction_ne_missed hl)
      · rename_i hr
        simp [hr]
    | false =>
      cases hs : ofCharacter? c with
      | some token => simp [readFunction_missed hl, hs]
      | none => simp [readFunction_missed hl, hs, hb]

/-- With more rounds than characters all tokens are read. -/
theorem rounds_eq {count : Nat} (h : cs.length < count) (position : Nat) :
    rounds count position cs = some (readFrom position cs) := by
  induction count generalizing position cs with
  | zero => exact absurd h (Nat.not_lt_zero _)
  | succ count ih =>
    cases cs with
    | nil => rw [rounds, attempt_nil, readFrom_nil]
    | cons c cs =>
      cases hb : Blank.isBlank c with
      | true =>
        have hskip := readFrom_blanks (w := [c]) (by simpa using hb) position cs
        have hone : (c :: cs).length - cs.length = [c].length := by simp
        have hcs : cs.length < count := Nat.lt_of_succ_lt_succ h
        rw [rounds, attempt_blank hb]
        simp only
        rw [hone, ih hcs, ← hskip]
        rfl
      | false =>
        rw [rounds, attempt_word hb, ← next_word hb]
        cases hn : next position (c :: cs) with
        | mk result rest =>
          match result with
          | .error fault => simp [readFrom_error hn]
          | .ok none => simp [readFrom_none hn]
          | .ok (some token) =>
            have hlt := length_next_lt hn
            have hrest : rest.length < count := by omega
            simp [ih hrest, readFrom_some hn]

theorem tokenize_ok_iff (text : String) (tokens : List Token) :
    tokenize text = .ok tokens ↔ Covers tokens text.toList [] := by
  constructor
  · exact covers_of_readFrom
  · intro h
    rw [tokenize, h.readFrom, readFrom_nil]
    simp

theorem tokenize_unknown_iff (text : String) (c : Char) (p : Nat) :
    tokenize text = .error (.badCharacterAt c p) ↔
      ∃ tokens read behind, text.toList = read ++ c :: behind ∧ p = read.length ∧
        Covers tokens text.toList (c :: behind) ∧ IsUnknown c := by
  constructor
  · intro h
    obtain ⟨tokens, read, behind, ht, hp, hts, hc⟩ := covers_of_unknown h
    exact ⟨tokens, read, behind, ht, by simpa using hp, hts, hc⟩
  · rintro ⟨tokens, read, behind, ht, rfl, hts, hc⟩
    have hlength : text.toList.length - (c :: behind).length = read.length := by simp [ht]
    rw [tokenize, hts.readFrom, hlength, readFrom_error (hc.next _ behind), Nat.zero_add]
    rfl

/-- No character is dropped but blanks. The tokens of a text are those that cover it; an unknown
character is told where tokens and blanks cover all that is before it, by its index. A call takes
the cursor on within the text, past what it tells of. A number that is missed takes up nothing, so
that rounds of attempts read the same tokens, with no more than one round for each character and
one for the end. -/
theorem tokenize_covers (text : String) :
    (∀ tokens, tokenize text = .ok tokens ↔ Covers tokens text.toList []) ∧
    (∀ c p, tokenize text = .error (.badCharacterAt c p) ↔
      ∃ tokens read behind, text.toList = read ++ c :: behind ∧ p = read.length ∧
        Covers tokens text.toList (c :: behind) ∧ IsUnknown c) ∧
    (∀ (cursor after : Cursor Char) (result : Except Fault (Option Token)),
      cursor.items = text.toList → cursor.position ≤ cursor.items.length →
      cursor.run (next cursor.position) = (result, after) →
      after.items = text.toList ∧ cursor.position ≤ after.position ∧
        after.position ≤ text.toList.length ∧
        (∀ token, result = .ok (some token) → cursor.position < after.position) ∧
        (∀ c p, result = .error (.badCharacterAt c p) → cursor.position ≤ p ∧
          after.position = p + 1 ∧ text.toList[p]? = some c)) ∧
    (∀ cs rest, Decimal.readLiteral cs = (.error .noInput, rest) ↔
      rest = cs ∧ ∀ c ∈ cs.head?, c.isDigit = false) ∧
    rounds (text.toList.length + 1) 0 text.toList = some (tokenize text) := by
  refine ⟨tokenize_ok_iff text, tokenize_unknown_iff text, ?_, ?_, ?_⟩
  · intro cursor after result hitems hp hr
    rw [← hitems]
    exact run_next hp hr
  · intro cs rest
    exact Decimal.readLiteral_noInput_iff
  · exact rounds_eq (Nat.lt_succ_self _) 0

/-- In `7! ?` two tokens and a blank come before the question mark, which has the index three. -/
theorem tokenize_covers_unknown :
    tokenize "7! ?" = .error (.badCharacterAt '?' 3) := by
  have hseven : (number (.whole 7)).Spans ['7'] ['!', ' ', '?'] := by
    change Decimal.readLiteral ['7', '!', ' ', '?'] = _
    decide
  have hfactorial : factorial.Spans ['!'] [' ', '?'] := ⟨trivial, rfl⟩
  have hblank : Covers [] [' ', '?'] ['?'] := .blanks (List.forall_mem_singleton.mpr rfl)
  have hcover : Covers [number (.whole 7), factorial] ['7', '!', ' ', '?'] ['?'] :=
    .token (w := []) (by simp) (by simp) hseven (.token (w := []) (by simp) (by simp) hfactorial
      hblank)
  have hunknown : IsUnknown '?' := ⟨by decide, by decide, by decide, by decide⟩
  obtain ⟨_, unknown, _⟩ := tokenize_covers "7! ?"
  exact (unknown '?' 3).mpr ⟨_, ['7', '!', ' '], [], rfl, rfl, hcover, hunknown⟩

end Token

end DeskCalculator
