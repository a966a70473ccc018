import DeskCalculator.Proofs.Decimal.Literal.Holding

namespace DeskCalculator

open Literal (Continued Ends Run Writes plain)

namespace Numeral

variable {numeral longer : Numeral} {l : Literal} {w cs rest : List Char} {c : Char} {d : Nat}
  {ds : List Nat} {separated separated' : Bool} {r : Except Fault Decimal × List Char}

theorem Follows.holds (h : Follows l (.ok numeral)) : numeral.Holds l := by
  unfold Follows at h
  split at h
  · obtain ⟨held, he, hh⟩ := h
    cases he
    exact hh
  · cases h

theorem eq_of_whole_matches (h : (whole ds).Matches l) : l = .whole ds.reverse := by
  cases h with
  | whole ds => rw [List.reverse_reverse]

theorem hexadecimal_holds : (hexadecimal [0]).Holds (.hexadecimal []) :=
  ⟨trivial, .hexadecimal [], rfl⟩

theorem binary_holds : (binary Decimal.zero).Holds (.binary []) :=
  ⟨Decimal.zero_wellFormed, Decimal.zero_eq ▸ .binary [], rfl⟩

theorem Holds.point (h : (whole ds.reverse).Holds (.whole ds)) :
    (fractional ds.reverse []).Holds (.fractional ds []) := by
  have hlong : ¬ 20 < ds.length := by simpa [Literal.limit, Literal.excess] using h.within
  exact ⟨⟨h.wellFormed, Digits.below_nil 10, Nat.zero_le _⟩, .fractional ds [], if_neg hlong⟩

/-- What a marker follows is a single zero, with or without an underscore behind it. -/
theorem mark_taken (h : numeral.Holds l) (ht : l.Taken separated w) (hm : numeral.isMarker c = true)
    (hn : numeral.mark c = .ok longer) :
    ∃ marked : Literal, longer.Holds marked ∧ marked.Taken separated (w ++ [c]) := by
  unfold mark at hn
  split at hn
  · obtain rfl := eq_of_whole_matches h.digits
    obtain rfl := Except.ok.inj hn
    obtain rfl | rfl : c = 'x' ∨ c = 'b' := by simpa [isMarker, base] using hm
    · exact ⟨.hexadecimal [], hexadecimal_holds, ht.hexadecimal⟩
    · exact ⟨.binary [], binary_holds, ht.binary⟩
  · cases hn

/-- A character that does not end a numeral is a marker, the point, an underscore or a digit. -/
theorem next_cases (hn : numeral.next separated c = .ok (some (longer, separated'))) :
    (separated' = separated ∧ numeral.isMarker c = true ∧ numeral.mark c = .ok longer) ∨
    (separated' = separated ∧ c = '.' ∧ ∃ ds, numeral = whole ds ∧ longer = fractional ds []) ∨
    (separated = false ∧ separated' = true ∧ c = '_' ∧ longer = numeral) ∨
    (separated' = false ∧ ∃ d, Digits.ofCharacter? numeral.base c = some d ∧
      numeral.append d = .ok longer) := by
  unfold next at hn
  split at hn
  case isTrue hm =>
    obtain ⟨marked, hmark, he⟩ := Outcome.map_ok hn
    cases he
    exact .inl ⟨rfl, hm, hmark⟩
  case isFalse =>
    split at hn
    case isTrue hc =>
      split at hn
      · cases hn
        exact .inr (.inl ⟨rfl, hc, _, rfl, rfl⟩)
      · cases hn
    case isFalse =>
      split at hn
      case isTrue hc =>
        split at hn
        · cases hn
        · rename_i hs
          cases hn
          exact .inr (.inr (.inl ⟨by simpa using hs, rfl, hc, rfl⟩))
      case isFalse =>
        split at hn
        · rename_i digit hdigit
          obtain ⟨grown, happend, he⟩ := Outcome.map_ok hn
          cases he
          exact .inr (.inr (.inr ⟨rfl, digit, hdigit, happend⟩))
        · cases hn

/-- The literal grows with the characters. -/
theorem next_taken (h : numeral.Holds l) (ht : l.Taken separated w)
    (hn : numeral.next separated c = .ok (some (longer, separated'))) :
    ∃ l' : Literal, longer.Holds l' ∧ l'.Taken separated' (w ++ [c]) := by
  obtain ⟨rfl, hm, hmark⟩ | ⟨rfl, rfl, ds, rfl, rfl⟩ | ⟨rfl, rfl, rfl, rfl⟩ |
    ⟨rfl, d, hd, happend⟩ := next_cases hn
  · exact mark_taken h ht hm hmark
  · cases h.digits with
    | whole ds => exact ⟨.fractional ds [], h.point, ht.point⟩
  · exact ⟨l, h, ht.separator⟩
  · rw [h.base, Literal.ofCharacter_iff_writes l.base_le] at hd
    have hf := append_follows h hd.1
    rw [happend] at hf
    exact ⟨l.extend [d], hf.holds, ht.digit hd⟩

/-- Where reading stops: at the end of the literal, or at a character that is refused. -/
def Stops (numeral : Numeral) (separated : Bool) (rest : List Char)
    (outcome : Except Fault Decimal) : Prop :=
  outcome = numeral.value ∨ ∃ (c : Char) (behind : List Char) (fault : Fault),
    rest = c :: behind ∧ numeral.next separated c = .error fault ∧ outcome = .error fault

/-- Up to where reading stops, a literal has been read that the numeral holds. -/
theorem scan_run (h : numeral.Holds l) (ht : l.Taken separated w) {outcome : Except Fault Decimal}
    (hr : numeral.scan separated cs = (outcome, rest)) :
    ∃ (read : List Char) (l' : Literal) (separated' : Bool) (last : Numeral), cs = read ++ rest ∧
      last.Holds l' ∧ l'.Taken separated' (w ++ read) ∧ last.Stops separated' rest outcome := by
  induction cs generalizing numeral l w separated with
  | nil =>
    cases hr
    exact ⟨[], l, separated, numeral, rfl, h, by simpa using ht, .inl rfl⟩
  | cons c cs ih =>
    unfold scan at hr
    split at hr
    · rename_i fault hn
      cases hr
      exact ⟨[], l, separated, numeral, rfl, h, by simpa using ht,
        .inr ⟨c, cs, fault, rfl, hn, rfl⟩⟩
    · cases hr
      exact ⟨[], l, separated, numeral, rfl, h, by simpa using ht, .inl rfl⟩
    · rename_i longer separated' hn
      obtain ⟨l₁, hl₁, ht₁⟩ := next_taken h ht hn
      obtain ⟨read, l', separated', last, rfl, hl', ht', hstops⟩ := ih hl₁ ht₁ hr
      refine ⟨c :: read, l', separated', last, rfl, hl', ?_, hstops⟩
      rwa [List.append_assoc] at ht'

theorem value_denotes (h : numeral.Holds l) {x : Decimal} (hv : numeral.value = .ok x) :
    l.Denotes x := by
  have hr := h.reads []
  rw [hv] at hr
  unfold Literal.Reads at hr
  split at hr
  · obtain ⟨y, he, hd⟩ := hr
    cases he
    exact hd
  · cases hr

/-- Reading has come as far as this literal, or its limit has been passed. -/
def Leads (l : Literal) (cs : List Char) (r : Except Fault Decimal × List Char) : Prop :=
  match l.limit with
  | none => ∃ numeral : Numeral, numeral.Holds l ∧ r = numeral.scan false cs
  | some fault => r.1 = .error fault

theorem next_written (hb : numeral.base ≤ 16) (hc : Writes numeral.base c d) (separated : Bool) :
    numeral.next separated c = (numeral.append d).map fun longer => some (longer, false) := by
  obtain ⟨hx, hp, hu⟩ := hc.plain hb
  have hm : numeral.isMarker c = false := by
    cases numeral with
    | whole _ | fractional _ _ | binary _ => simp [isMarker, hx, hc.ne_b (by simp [base])]
    | hexadecimal _ => simp [isMarker, base, hx]
  simp [next, hm, hp, hu, (Literal.ofCharacter_iff_writes hb).mpr hc]

theorem scan_written (h : numeral.Holds l) (hc : Writes l.base c d) (separated : Bool)
    (cs : List Char) : Leads (l.extend [d]) cs (numeral.scan separated (c :: cs)) := by
  have hbase := h.base
  have hn := next_written (hbase ▸ l.base_le) (hbase ▸ hc) separated
  have hf := append_follows h hc.1
  unfold Follows at hf
  unfold Leads
  cases hl : (l.extend [d]).limit with
  | none =>
    rw [hl] at hf
    obtain ⟨longer, happend, hh⟩ := hf
    rw [happend] at hn
    refine ⟨longer, hh, ?_⟩
    rw [scan, hn]
    rfl
  | some fault =>
    rw [hl] at hf
    rw [hf] at hn
    simp only [scan, hn]
    rfl

theorem leads_of_holds (h : numeral.Holds l) (cs : List Char) :
    Leads l cs (numeral.scan false cs) := by
  unfold Leads
  rw [h.within]
  exact ⟨numeral, h, rfl⟩

/-- What is refused stays refused, however the text goes on. -/
theorem Leads.mono {l' : Literal} {es : List Char} (h : Leads l cs r)
    (hlimit : ∀ fault, l.limit = some fault → l'.limit = some fault)
    (hscan : ∀ numeral : Numeral, numeral.Holds l → Leads l' es (numeral.scan false cs)) :
    Leads l' es r := by
  unfold Leads at h
  split at h
  · obtain ⟨numeral, hh, rfl⟩ := h
    exact hscan numeral hh
  · rename_i hl
    unfold Leads
    rw [hlimit _ hl]
    exact h

/-- Digits with underscores between them are all read. -/
theorem Leads.continued (h : Leads l (cs ++ rest) r) (hc : Continued l.base cs ds) :
    Leads (l.extend ds) rest r := by
  generalize hb : l.base = b at hc
  induction hc generalizing l with
  | nil => rwa [Literal.extend_nil]
  | digit written _ ih =>
    subst hb
    have hstep := h.mono (fun _ hl => Literal.limit_extend hl [_])
      fun numeral hh => scan_written hh written false _
    rw [Literal.extend_cons]
    exact ih hstep (Literal.base_extend _ _)
  | separated written _ ih =>
    subst hb
    have hstep := h.mono (fun _ hl => Literal.limit_extend hl [_])
      fun numeral hh => scan_written hh written true _
    rw [Literal.extend_cons]
    exact ih hstep (Literal.base_extend _ _)

theorem Leads.point (h : Leads (.whole ds) ('.' :: cs) r) : Leads (.fractional ds []) cs r := by
  refine h.mono ?_ ?_
  · intro fault hl
    obtain ⟨hlong, hf⟩ := Option.ite_none_right_eq_some.mp hl
    exact (if_pos hlong).trans hf
  · intro numeral hh
    cases hh.digits with
    | whole ds => exact leads_of_holds hh.point cs

theorem scan_ends (he : Ends rest) (separated : Bool) :
    numeral.scan separated rest = (numeral.value, rest) := by
  cases rest with
  | nil => rfl
  | cons c cs =>
    obtain ⟨ha, hu, hp⟩ := he c rfl
    have hx : c ≠ 'x' ∧ c ≠ 'b' := by
      constructor <;> (rintro rfl; cases ha)
    have hb : numeral.base ≤ 16 := by cases numeral <;> simp [base]
    have hnext : numeral.next separated c = .ok none := by
      simp [next, isMarker, hx, hp, hu, Literal.ofCharacter_of_not_alphanum hb ha]
    rw [scan, hnext]

/-- Where the text does not go on, the literal is read. -/
theorem Leads.ends (h : Leads l rest r) (he : Ends rest) : l.Reads rest r := by
  unfold Leads at h
  split at h
  · obtain ⟨numeral, hh, rfl⟩ := h
    rw [scan_ends he]
    exact hh.reads rest
  · rename_i hl
    unfold Literal.Reads
    rw [Literal.excess_of_limit hl]
    exact h

end Numeral

namespace Decimal

open Numeral (Leads leads_of_holds)

theorem holds_digit {c : Char} {d : Nat} (h : Writes 10 c d) :
    (Numeral.whole [d]).Holds (.whole [d]) :=
  ⟨⟨Digits.below_cons.mpr ⟨h.1, Digits.below_nil 10⟩, (by decide : 1 ≤ 20)⟩, .whole [d], rfl⟩

theorem leads_run {cs : List Char} {ds : List Nat} (h : Run 10 cs ds) (rest : List Char) :
    Leads (.whole ds) rest (readLiteral (cs ++ rest)) := by
  obtain @⟨c, d, cs, ds, written, continued⟩ := h
  have hd := (Literal.ofCharacter_iff_writes (by omega)).mpr written
  rw [List.cons_append, readLiteral, hd]
  exact (leads_of_holds (holds_digit written) (cs ++ rest)).continued continued

/-- Each literal is read to its end. -/
theorem readLiteral_grouped {l : Literal} {cs rest : List Char} (h : l.Grouped cs)
    (he : Ends rest) : l.Reads rest (readLiteral (cs ++ rest)) := by
  refine Leads.ends ?_ he
  cases h with
  | whole run => exact leads_run run rest
  | @point cs ds run =>
    have hpoint := (leads_run run ('.' :: rest)).point
    rwa [List.append_assoc]
  | @fractional cs es ds fs run fraction =>
    have hpoint := (leads_run run ('.' :: (es ++ rest))).point
    rw [List.append_assoc]
    exact hpoint.continued fraction.continued
  | hexadecimal run =>
    exact (leads_of_holds Numeral.hexadecimal_holds _).continued run.continued
  | binary run =>
    exact (leads_of_holds Numeral.binary_holds _).continued run.continued

/-- A text that begins with a digit is read as far as a literal goes. -/
theorem readLiteral_run {cs rest : List Char} {outcome : Except Fault Decimal}
    (h : readLiteral cs = (outcome, rest)) (hne : outcome ≠ .error .noInput) :
    ∃ (read : List Char) (l : Literal) (separated : Bool) (last : Numeral), cs = read ++ rest ∧
      last.Holds l ∧ l.Taken separated read ∧ last.Stops separated rest outcome := by
  cases cs with
  | nil =>
    cases h
    exact absurd rfl hne
  | cons c cs =>
    rw [readLiteral] at h
    split at h
    · rename_i d hd
      have written := (Literal.ofCharacter_iff_writes (by omega)).mp hd
      obtain ⟨read, l, separated, last, rfl, hl, ht, hstops⟩ :=
        Numeral.scan_run (holds_digit written) (.first written) h
      exact ⟨c :: read, l, separated, last, rfl, hl, ht, hstops⟩
    · cases h
      exact absurd rfl hne

theorem readLiteral_of_not_isDigit {c : Char} (hc : c.isDigit = false) (cs : List Char) :
    readLiteral (c :: cs) = (.error .noInput, c :: cs) := by
  cases hd : Digits.ofCharacter? 10 c with
  | none => simp only [readLiteral, hd]
  | some d =>
    have hdigit := ((Literal.ofCharacter_iff_writes (by omega)).mp hd).isDigit
    rw [hc] at hdigit
    cases hdigit

/-- A literal is missed only where no digit stands, and then nothing has been read. -/
theorem readLiteral_noInput_iff {cs rest : List Char} :
    readLiteral cs = (.error .noInput, rest) ↔
      rest = cs ∧ ∀ c ∈ cs.head?, c.isDigit = false := by
  constructor
  · intro h
    cases cs with
    | nil =>
      cases h
      simp
    | cons c cs =>
      cases hc : c.isDigit with
      | true =>
        have hy := readLiteral_yields hc cs
        rw [h] at hy
        exact absurd hy id
      | false =>
        rw [readLiteral_of_not_isDigit hc] at h
        cases h
        simp [hc]
  · rintro ⟨rfl, hd⟩
    cases rest with
    | nil => rfl
    | cons c cs => exact readLiteral_of_not_isDigit (hd c rfl) cs

theorem readLiteral_suffix (cs : List Char) : (readLiteral cs).2 <:+ cs := by
  cases hr : readLiteral cs with
  | mk outcome rest =>
    by_cases hne : outcome = .error .noInput
    · subst hne
      rw [(readLiteral_noInput_iff.mp hr).1]
    · obtain ⟨read, _, _, _, rfl, _⟩ := readLiteral_run hr hne
      exact List.suffix_append read rest

/-- What is read is a literal that has been taken, and has its number. -/
theorem readLiteral_taken {cs rest : List Char} {x : Decimal}
    (h : readLiteral cs = (.ok x, rest)) :
    ∃ (read : List Char) (l : Literal) (separated : Bool), cs = read ++ rest ∧
      l.Taken separated read ∧ l.Denotes x := by
  obtain ⟨read, l, separated, last, hcs, hl, ht, hv | ⟨_, _, _, _, _, he⟩⟩ :=
    readLiteral_run h nofun
  · exact ⟨read, l, separated, hcs, ht, Numeral.value_denotes hl hv.symm⟩
  · cases he

/-- What is read spells a literal. -/
theorem readLiteral_spells {cs rest : List Char} {x : Decimal}
    (h : readLiteral cs = (.ok x, rest)) :
    ∃ (read : List Char) (l : Literal), cs = read ++ rest ∧ l.Spells (plain read) ∧
      l.Denotes x := by
  obtain ⟨read, l, _, hcs, ht, hx⟩ := readLiteral_taken h
  exact ⟨read, l, hcs, ht.spells, hx⟩

/-- The reader of literals is sound and complete. What it reads spells exactly one literal, and is
the number of that. And it reads each literal in front of a text that does not go on with it, unless
the literal has too much of something. -/
theorem readLiteral_sound_complete :
    (∀ (cs rest : List Char) (x : Decimal), readLiteral cs = (.ok x, rest) →
      ∃ (read : List Char) (l : Literal), cs = read ++ rest ∧
        (∀ l' : Literal, l'.Spells (plain read) ↔ l' = l) ∧ l.Denotes x) ∧
    (∀ (l : Literal) (cs rest : List Char), l.Grouped cs → Ends rest →
      l.Spells (plain cs) ∧ l.Reads rest (readLiteral (cs ++ rest))) := by
  refine ⟨?_, ?_⟩
  · intro cs rest x h
    obtain ⟨read, l, hcs, hs, hx⟩ := readLiteral_spells h
    refine ⟨read, l, hcs, fun l' => ⟨fun hs' => hs'.unique hs, ?_⟩, hx⟩
    rintro rfl
    exact hs
  · intro l cs rest hg he
    exact ⟨hg.spells, readLiteral_grouped hg he⟩

/-- In front of a parenthesis `1_2.5` is read, as the number with the digits 1, 2 and 5. -/
theorem readLiteral_sound_complete_parenthesis :
    let l := Literal.fractional [1, 2] [5]
    l.Grouped ['1', '_', '2', '.', '5'] ∧ Ends [')'] ∧ ∃ x : Decimal,
      readLiteral ['1', '_', '2', '.', '5', ')'] = (.ok x, [')']) ∧ l.Denotes x ∧
      ∃ (read : List Char) (l' : Literal), ['1', '_', '2', '.', '5', ')'] = read ++ [')'] ∧
        (∀ l'' : Literal, l''.Spells (plain read) ↔ l'' = l') ∧ l'.Denotes x := by
  have h1 : Writes 10 '1' 1 := ⟨by decide, .inl rfl⟩
  have h2 : Writes 10 '2' 2 := ⟨by decide, .inl rfl⟩
  have h5 : Writes 10 '5' 5 := ⟨by decide, .inl rfl⟩
  have hg := Literal.Grouped.fractional ⟨h1, .separated h2 .nil⟩ ⟨h5, .nil⟩
  have he : Ends [')'] := by
    intro c hc
    cases hc
    decide
  obtain ⟨sound, complete⟩ := readLiteral_sound_complete
  obtain ⟨_, x, hr, hd⟩ := complete _ _ _ hg he
  exact ⟨hg, he, x, hr, hd, sound _ _ _ hr⟩

end Decimal

end DeskCalculator
