import DeskCalculator.Proofs.Decimal.Literal.Reading

namespace DeskCalculator

open Literal (Writes plain)

namespace Literal

variable {l : Literal} {separated : Bool} {w before between behind : List Char} {a c : Char}

/-- Among hexadecimal digits a `b` is a digit. -/
def IsMarker (l : Literal) (c : Char) : Prop := c = 'x' ∨ (c = 'b' ∧ l.base ≠ 16)

/-- What belongs to a literal besides its digits. -/
def IsMark (l : Literal) (c : Char) : Prop := l.IsMarker c ∨ c = '.'

def IsDigit (l : Literal) (c : Char) : Prop := ∃ d, Writes l.base c d

/-- The rule for texts of literals: markers stand right behind a single zero, and underscores
between two digits. -/
structure Orderly (l : Literal) (w : List Char) : Prop where
  marker : ∀ before c behind, w = before ++ c :: behind → l.IsMarker c → before = ['0']
  separator : ∀ before behind, w = before ++ '_' :: behind →
    (∃ c ∈ before.getLast?, l.IsDigit c) ∧ ∃ c ∈ behind.head?, l.IsDigit c

/-- An underscore stands next to a marker or the point, or at the end. -/
def Stray (l : Literal) (w : List Char) : Prop :=
  ∃ before behind, w = before ++ '_' :: behind ∧ ((∃ c ∈ before.getLast?, l.IsMark c) ∨
    behind = [] ∨ ∃ c ∈ behind.head?, l.IsMark c)

/-- A character of a text with one more at its end is that one, or it stands before it. -/
theorem split_snoc (h : w ++ [a] = before ++ c :: behind) :
    (before = w ∧ c = a ∧ behind = []) ∨
      ∃ behind', behind = behind' ++ [a] ∧ w = before ++ c :: behind' := by
  rcases behind.eq_nil_or_concat with rfl | ⟨behind', b, rfl⟩
  · obtain ⟨rfl, he⟩ := List.append_inj' h rfl
    cases he
    exact .inl ⟨rfl, rfl, rfl⟩
  · rw [List.concat_eq_append, ← List.cons_append, ← List.append_assoc] at h
    obtain ⟨rfl, he⟩ := List.append_inj' h rfl
    cases he
    exact .inr ⟨behind', List.concat_eq_append, rfl⟩

theorem IsMark.cases (h : l.IsMark c) : c = 'x' ∨ c = 'b' ∨ c = '.' := by
  rcases h with (rfl | ⟨rfl, _⟩) | rfl <;> simp

theorem IsDigit.not_isMark (h : l.IsDigit c) : ¬ l.IsMark c := by
  obtain ⟨d, hw⟩ := h
  obtain ⟨hx, hp, _⟩ := hw.plain l.base_le
  rintro ((rfl | ⟨rfl, hb⟩) | rfl)
  · exact hx rfl
  · cases l with
    | hexadecimal _ => exact hb rfl
    | whole _ | fractional _ _ | binary _ => exact hw.ne_b (by simp [Literal.base]) rfl
  · exact hp rfl

theorem IsDigit.ne_separator (h : l.IsDigit c) : c ≠ '_' := by
  obtain ⟨d, hw⟩ := h
  exact (hw.plain l.base_le).2.2

theorem not_isMark_separator : ¬ l.IsMark '_' := by simp [IsMark, IsMarker]

theorem isDigit_zero : l.IsDigit '0' := by
  cases l with
  | whole _ | fractional _ _ | hexadecimal _ | binary _ =>
    exact ⟨0, by simp [Literal.base], .inl rfl⟩

theorem isDigit_extend {ds : List Nat} : (l.extend ds).IsDigit c ↔ l.IsDigit c := by
  rw [IsDigit, base_extend, IsDigit]

theorem isMarker_extend {ds : List Nat} : (l.extend ds).IsMarker c ↔ l.IsMarker c := by
  rw [IsMarker, base_extend, IsMarker]

theorem isMark_extend {ds : List Nat} : (l.extend ds).IsMark c ↔ l.IsMark c := by
  rw [IsMark, isMarker_extend, IsMark]

/-- A zero that a marker may follow. -/
theorem Taken.zero (h : (whole [0]).Taken separated w) :
    (separated = false ∧ w = ['0']) ∨ (separated = true ∧ w = ['0', '_']) := by
  generalize hl : whole [0] = l at h
  induction h with
  | first written =>
    cases hl
    obtain ⟨_, rfl | rfl⟩ := written
    · exact .inl ⟨rfl, rfl⟩
    · exact .inl ⟨rfl, rfl⟩
  | @digit l _ _ _ _ before _ _ =>
    cases l with
    | whole ds =>
      have hds : ds ≠ [] := before.spells.1
      cases ds with
      | nil => exact absurd rfl hds
      | cons _ _ => simp [extend] at hl
    | fractional _ _ | hexadecimal _ | binary _ => cases hl
  | separator _ ih =>
    subst hl
    obtain ⟨_, rfl⟩ | ⟨hs, _⟩ := ih rfl
    · exact .inr ⟨rfl, rfl⟩
    · cases hs
  | point | hexadecimal | binary => cases hl

/-- Before a point or marker there is none. -/
theorem Taken.not_isMark {ds : List Nat} (h : (whole ds).Taken separated w) (hc : c ∈ w) :
    ¬ (whole ds).IsMark c := by
  intro hm
  obtain ⟨hx, hb, hp⟩ := h.spells.marks
  have hplain : c ∈ plain w :=
    List.mem_filter.mpr ⟨hc, by rcases hm.cases with rfl | rfl | rfl <;> rfl⟩
  rcases hm.cases with rfl | rfl | rfl
  · exact hx hplain
  · exact hb hplain
  · exact hp hplain

theorem Taken.zero_mem (h : (whole [0]).Taken separated w) (hc : c ∈ w) : c = '0' ∨ c = '_' := by
  obtain ⟨_, rfl⟩ | ⟨_, rfl⟩ := h.zero
  · exact .inl (by simpa using hc)
  · simpa using hc

/-- In what comes before a marker there is none. -/
theorem Taken.zero_not_isMarker (h : (whole [0]).Taken separated w) (hc : c ∈ w) :
    ¬ l.IsMarker c := by
  rcases h.zero_mem hc with rfl | rfl <;> simp [IsMarker]

theorem Taken.zero_isDigit (h : (whole [0]).Taken separated w) (hc : c ∈ w)
    (hd : (whole [0]).IsDigit c) : l.IsDigit c := by
  obtain rfl := (h.zero_mem hc).resolve_right hd.ne_separator
  exact isDigit_zero

/-- A literal consists of digits, markers, the point and underscores. -/
theorem Taken.kind (h : l.Taken separated w) (hc : c ∈ w) :
    l.IsDigit c ∨ l.IsMark c ∨ c = '_' := by
  induction h with
  | first written =>
    obtain rfl := List.mem_singleton.mp hc
    exact .inl ⟨_, written⟩
  | digit _ written ih =>
    rw [isDigit_extend, isMark_extend]
    rcases List.mem_append.mp hc with hc | hc
    · exact ih hc
    · obtain rfl := List.mem_singleton.mp hc
      exact .inl ⟨_, written⟩
  | separator _ ih =>
    rcases List.mem_append.mp hc with hc | hc
    · exact ih hc
    · exact .inr (.inr (List.mem_singleton.mp hc))
  | point _ ih =>
    rcases List.mem_append.mp hc with hc | hc
    · exact ih hc
    · exact .inr (.inl (.inr (List.mem_singleton.mp hc)))
  | hexadecimal before | binary before =>
    rcases List.mem_append.mp hc with hc | hc
    · rcases before.zero_mem hc with rfl | rfl
      · exact .inl isDigit_zero
      · exact .inr (.inr rfl)
    · obtain rfl := List.mem_singleton.mp hc
      exact .inr (.inl (.inl (by simp [IsMarker, Literal.base])))

/-- The first character is a digit. -/
theorem Taken.head (h : l.Taken separated w) : ∃ c d, w.head? = some c ∧ Writes 10 c d := by
  induction h with
  | first written => exact ⟨_, _, rfl, written⟩
  | digit _ _ ih | separator _ ih | point _ ih | hexadecimal _ ih | binary _ ih =>
    obtain ⟨c, d, hc, written⟩ := ih
    exact ⟨c, d, by simp [hc], written⟩

/-- A marker stands behind the first zero; only an underscore may come between. -/
theorem Taken.marker (h : l.Taken separated w) (hw : w = before ++ c :: behind)
    (hc : l.IsMarker c) : before = ['0'] ∨ before = ['0', '_'] := by
  induction h generalizing behind with
  | @first m _ written =>
    have hm : c ∈ [m] := by simp [hw]
    obtain rfl := List.mem_singleton.mp hm
    exact absurd (.inl hc) (IsDigit.not_isMark (l := whole []) ⟨_, written⟩)
  | digit _ written ih =>
    rw [isMarker_extend] at hc
    obtain ⟨_, rfl, _⟩ | ⟨behind, _, hw⟩ := split_snoc hw
    · exact absurd (.inl hc) (IsDigit.not_isMark ⟨_, written⟩)
    · exact ih hw hc
  | separator _ ih =>
    obtain ⟨_, rfl, _⟩ | ⟨behind, _, hw⟩ := split_snoc hw
    · exact absurd (.inl hc) not_isMark_separator
    · exact ih hw hc
  | point _ ih =>
    obtain ⟨_, rfl, _⟩ | ⟨behind, _, hw⟩ := split_snoc hw
    · simp [IsMarker] at hc
    · exact ih hw hc
  | hexadecimal zero | binary zero =>
    obtain ⟨rfl, _, _⟩ | ⟨behind, _, rfl⟩ := split_snoc hw
    · exact zero.zero.imp And.right And.right
    · exact absurd hc (zero.zero_not_isMarker (by simp))

/-- The last underscore has not been closed by a digit; at most one marker or the point came
behind it. -/
theorem Taken.pending (h : l.Taken true w) :
    ∃ before between, w = before ++ '_' :: between ∧
      (between = [] ∨ ∃ c, between = [c] ∧ l.IsMark c) := by
  generalize hs : true = separated at h
  induction h with
  | first | digit => cases hs
  | @separator _ w _ _ => exact ⟨w, [], rfl, .inl rfl⟩
  | point whole ih =>
    obtain ⟨before, between, rfl, rfl | ⟨c, rfl, hc⟩⟩ := ih hs
    · exact ⟨before, ['.'], by simp, .inr ⟨'.', rfl, .inr rfl⟩⟩
    · exact absurd hc (whole.not_isMark (by simp))
  | hexadecimal zero | binary zero =>
    obtain ⟨rfl, _⟩ | ⟨_, rfl⟩ := zero.zero
    · cases hs
    · exact ⟨['0'], _, rfl, .inr ⟨_, rfl, .inl (by simp [IsMarker, Literal.base])⟩⟩

/-- Since the last underscore there was a digit. -/
theorem Taken.settled (h : l.Taken false w) (hw : w = before ++ '_' :: behind) :
    ∃ c ∈ behind, l.IsDigit c := by
  generalize hs : false = separated at h
  induction h generalizing behind with
  | @first m _ written =>
    have hm : '_' ∈ [m] := by simp [hw]
    obtain rfl := List.mem_singleton.mp hm
    exact absurd rfl (IsDigit.ne_separator (l := whole []) ⟨_, written⟩)
  | digit _ written _ =>
    obtain ⟨_, rfl, _⟩ | ⟨_, rfl, _⟩ := split_snoc hw
    · exact absurd rfl (IsDigit.ne_separator ⟨_, written⟩)
    · exact ⟨_, by simp, isDigit_extend.mpr ⟨_, written⟩⟩
  | separator => cases hs
  | point _ ih =>
    obtain ⟨_, he, _⟩ | ⟨_, rfl, hw'⟩ := split_snoc hw
    · cases he
    · obtain ⟨c, hc, hd⟩ := ih hw' hs
      exact ⟨c, List.mem_append_left _ hc, hd⟩
  | hexadecimal zero ih | binary zero ih =>
    obtain ⟨_, he, _⟩ | ⟨_, rfl, rfl⟩ := split_snoc hw
    · cases he
    · obtain ⟨c, hc, hd⟩ := ih rfl hs
      exact ⟨c, List.mem_append_left _ hc, zero.zero_isDigit (by simp [hc]) hd⟩

/-- Between two underscores there is a digit. -/
theorem Taken.digit_between (h : l.Taken separated w)
    (hw : w = before ++ '_' :: between ++ '_' :: behind) : ∃ c ∈ between, l.IsDigit c := by
  induction h generalizing behind with
  | @first m _ _ =>
    have hl := congrArg List.length hw
    simp at hl
    omega
  | digit _ written ih =>
    obtain ⟨_, rfl, _⟩ | ⟨_, _, hw⟩ := split_snoc hw
    · exact absurd rfl (IsDigit.ne_separator ⟨_, written⟩)
    · simpa only [isDigit_extend] using ih hw
  | separator before ih =>
    obtain ⟨rfl, _, _⟩ | ⟨_, _, hw⟩ := split_snoc hw
    · exact before.settled rfl
    · exact ih hw
  | point _ ih =>
    obtain ⟨_, he, _⟩ | ⟨_, _, hw⟩ := split_snoc hw
    · cases he
    · exact ih hw
  | hexadecimal zero ih | binary zero ih =>
    obtain ⟨_, he, _⟩ | ⟨_, _, rfl⟩ := split_snoc hw
    · cases he
    · obtain ⟨c, hc, hd⟩ := ih rfl
      exact ⟨c, hc, zero.zero_isDigit (by simp [hc]) hd⟩

/-- No two underscores are adjacent. -/
theorem Taken.not_adjacent (h : l.Taken separated w) : w ≠ before ++ '_' :: '_' :: behind := by
  intro hw
  have hb : ∃ c ∈ ([] : List Char), l.IsDigit c := h.digit_between (by simpa using hw)
  simp at hb

/-- An underscore follows a digit, a marker or the point. -/
theorem Taken.before_separator (h : l.Taken separated w) (hw : w = before ++ '_' :: behind) :
    ∃ c ∈ before.getLast?, l.IsDigit c ∨ l.IsMark c := by
  rcases before.eq_nil_or_concat with rfl | ⟨before, c, rfl⟩
  · obtain ⟨c, d, hc, written⟩ := h.head
    rw [hw] at hc
    cases hc
    exact absurd rfl (IsDigit.ne_separator (l := whole []) ⟨d, written⟩)
  · refine ⟨c, by simp, ?_⟩
    obtain hd | hm | rfl := h.kind (c := c) (by simp [hw])
    · exact .inl hd
    · exact .inr hm
    · exact absurd (by simpa using hw) h.not_adjacent

/-- An underscore is followed by a digit, a marker or the point, unless nothing follows. -/
theorem Taken.behind_separator (h : l.Taken separated w) (hw : w = before ++ '_' :: behind) :
    behind = [] ∨ ∃ c ∈ behind.head?, l.IsDigit c ∨ l.IsMark c := by
  cases behind with
  | nil => exact .inl rfl
  | cons c behind =>
    refine .inr ⟨c, rfl, ?_⟩
    obtain hd | hm | rfl := h.kind (c := c) (by simp [hw])
    · exact .inl hd
    · exact .inr hm
    · exact absurd hw h.not_adjacent

/-- A literal that was read is in order exactly if no underscore in it is stray. -/
theorem Taken.orderly_iff (h : l.Taken separated w) : l.Orderly w ↔ ¬ l.Stray w := by
  constructor
  · rintro ho ⟨before, behind, hw, hstray⟩
    obtain ⟨⟨c, hc, hd⟩, e, he, hd'⟩ := ho.separator before behind hw
    rcases hstray with ⟨c', hc', hm⟩ | rfl | ⟨e', he', hm⟩
    · obtain rfl := Option.mem_unique hc hc'
      exact hd.not_isMark hm
    · cases he
    · obtain rfl := Option.mem_unique he he'
      exact hd'.not_isMark hm
  · intro hs
    refine ⟨?_, ?_⟩
    · intro before c behind hw hc
      rcases h.marker hw hc with rfl | rfl
      · rfl
      · exact absurd ⟨['0'], c :: behind, hw, .inr (.inr ⟨c, rfl, .inl hc⟩)⟩ hs
    · intro before behind hw
      refine ⟨?_, ?_⟩
      · obtain ⟨c, hc, hd | hm⟩ := h.before_separator hw
        · exact ⟨c, hc, hd⟩
        · exact absurd ⟨before, behind, hw, .inl ⟨c, hc, hm⟩⟩ hs
      · obtain rfl | ⟨c, hc, hd | hm⟩ := h.behind_separator hw
        · exact absurd ⟨before, [], hw, .inr (.inl rfl)⟩ hs
        · exact ⟨c, hc, hd⟩
        · exact absurd ⟨before, behind, hw, .inr (.inr ⟨c, hc, hm⟩)⟩ hs

theorem Reads.excess {fault : Fault} {rest rest' : List Char}
    (h : l.Reads rest (.error fault, rest')) : l.excess = some fault := by
  unfold Reads at h
  split at h
  · obtain ⟨x, hx, _⟩ := h
    cases hx
  · rename_i he
    cases h
    exact he

theorem excess_ne_doubleSeparator (l : Literal) : l.excess ≠ some .doubleSeparator := by
  cases l with
  | whole _ | binary _ => simp [Literal.excess]
  | fractional ds fs | hexadecimal ds =>
    simp only [Literal.excess]
    split
    · simp
    · simp

end Literal

namespace Numeral

variable {numeral : Numeral} {l : Literal} {separated : Bool} {c : Char}

theorem Follows.excess {fault : Fault} (h : Follows l (.error fault)) : l.excess = some fault := by
  unfold Follows at h
  split at h
  · obtain ⟨_, he, _⟩ := h
    cases he
  · rename_i hl
    cases h
    exact Literal.excess_of_limit hl

theorem value_ne_doubleSeparator (h : numeral.Holds l) : numeral.value ≠ .error .doubleSeparator := by
  intro hv
  have hr := h.reads []
  rw [hv] at hr
  exact l.excess_ne_doubleSeparator hr.excess

theorem append_ne_doubleSeparator (h : numeral.Holds l) {d : Nat} (hd : d < l.base) :
    numeral.append d ≠ .error .doubleSeparator := by
  intro ha
  have hf := append_follows h hd
  rw [ha] at hf
  exact (l.extend [d]).excess_ne_doubleSeparator hf.excess

theorem mark_ne_doubleSeparator : numeral.mark c ≠ .error .doubleSeparator := by
  unfold mark
  split
  · simp
  · simp

/-- Only an underscore is refused as a double separator, and only if another one is pending. -/
theorem next_doubleSeparator (h : numeral.Holds l)
    (hn : numeral.next separated c = .error .doubleSeparator) : c = '_' ∧ separated = true := by
  unfold next at hn
  split at hn
  case isTrue => exact absurd (Outcome.map_error hn) mark_ne_doubleSeparator
  case isFalse =>
    split at hn
    case isTrue =>
      split at hn
      · cases hn
      · cases hn
    case isFalse =>
      split at hn
      case isTrue hc =>
        split at hn
        · rename_i hs
          exact ⟨hc, hs⟩
        · cases hn
      case isFalse =>
        split at hn
        · rename_i d hd
          rw [h.base, Literal.ofCharacter_iff_writes l.base_le] at hd
          exact absurd (Outcome.map_error hn) (append_ne_doubleSeparator h hd.1)
        · cases hn

end Numeral

namespace Decimal

variable {cs rest : List Char}

/-- Where reading ends with a double separator, an underscore is pending in front of another one. -/
theorem readLiteral_doubleSeparator (h : readLiteral cs = (.error .doubleSeparator, rest)) :
    ∃ before between behind, cs = before ++ '_' :: between ++ '_' :: behind ∧
      rest = '_' :: behind ∧ (between = [] ∨ ∃ c, between = [c] ∧ (c = 'x' ∨ c = 'b' ∨ c = '.')) := by
  obtain ⟨read, l, separated, last, rfl, hl, ht, hv | ⟨c, behind, fault, rfl, hn, he⟩⟩ :=
    readLiteral_run h nofun
  · exact absurd hv.symm (Numeral.value_ne_doubleSeparator hl)
  · cases he
    obtain ⟨rfl, rfl⟩ := Numeral.next_doubleSeparator hl hn
    obtain ⟨before, between, rfl, hb⟩ := ht.pending
    refine ⟨before, between, behind, rfl, rfl, hb.imp_right ?_⟩
    rintro ⟨c, rfl, hm⟩
    exact ⟨c, rfl, hm.cases⟩

/-- What the reader of literals makes of markers and underscores. In what it reads a marker stands
behind the zero at the beginning, with at most an underscore between them, and a digit between any
two underscores; markers and underscores are in order exactly if no underscore is stray. A double
separator is found if at most a marker or the point stands between two underscores. -/
theorem readLiteral_separators (cs rest : List Char) :
    (∀ x, readLiteral cs = (.ok x, rest) → ∃ (read : List Char) (l : Literal), cs = read ++ rest ∧
      l.Spells (plain read) ∧ l.Denotes x ∧
      (∀ before c behind, read = before ++ c :: behind → l.IsMarker c →
        before = ['0'] ∨ before = ['0', '_']) ∧
      (∀ before between behind, read = before ++ '_' :: between ++ '_' :: behind →
        ∃ c ∈ between, l.IsDigit c) ∧
      (l.Orderly read ↔ ¬ l.Stray read)) ∧
    (readLiteral cs = (.error .doubleSeparator, rest) →
      ∃ before between behind, cs = before ++ '_' :: between ++ '_' :: behind ∧
        rest = '_' :: behind ∧
        (between = [] ∨ ∃ c, between = [c] ∧ (c = 'x' ∨ c = 'b' ∨ c = '.'))) := by
  refine ⟨?_, readLiteral_doubleSeparator⟩
  intro x h
  obtain ⟨read, l, separated, hcs, ht, hx⟩ := readLiteral_taken h
  exact ⟨read, l, hcs, ht.spells, hx, fun _ _ _ => ht.marker, fun _ _ _ => ht.digit_between,
    ht.orderly_iff⟩

/-- The literal `1_0` is in order. -/
theorem readLiteral_separators_orderly :
    ∃ x, readLiteral ['1', '_', '0'] = (.ok x, []) ∧ ∃ l : Literal, l.Spells ['1', '0'] ∧
      l.Denotes x ∧ l.Orderly ['1', '_', '0'] := by
  obtain ⟨x, hx⟩ : ∃ x, readLiteral ['1', '_', '0'] = (.ok x, []) := ⟨_, rfl⟩
  obtain ⟨hread, _⟩ := readLiteral_separators ['1', '_', '0'] []
  obtain ⟨read, l, hcs, hs, hd, _, _, ho⟩ := hread x hx
  obtain rfl : ['1', '_', '0'] = read := by simpa using hcs
  refine ⟨x, hx, l, hs, hd, ho.mpr ?_⟩
  rintro ⟨before, behind, hw, hstray⟩
  have hbefore : '_' ∉ ['1'] := by decide
  have hbehind : '_' ∉ ['0'] := by decide
  obtain ⟨rfl, _, rfl⟩ := (List.append_cons_inj_of_notMem hbefore hbehind).mp hw
  simp [Literal.IsMark, Literal.IsMarker] at hstray

/-- The marker of `0_x1` does not stand right behind the zero, and in `1_._5` a point stands between
the underscores of the double separator. -/
theorem readLiteral_stray_separators :
    ¬ (∀ cs rest x, readLiteral cs = (.ok x, rest) → ∃ (read : List Char) (l : Literal),
      cs = read ++ rest ∧ l.Spells (plain read) ∧ l.Orderly read) ∧
    ¬ (∀ cs rest, readLiteral cs = (.error .doubleSeparator, rest) → ['_', '_'] <:+: cs) := by
  refine ⟨?_, ?_⟩
  · intro h
    have hx : readLiteral ['0', '_', 'x', '1'] = ((Numeral.hexadecimal [1, 0]).value, []) := rfl
    rw [Numeral.value, ofNibbles_eq, fit_integer_of_lt (by decide)] at hx
    obtain ⟨read, l, hcs, _, ho⟩ := h _ _ _ hx
    obtain rfl : ['0', '_', 'x', '1'] = read := by simpa using hcs
    have hzero := ho.marker ['0', '_'] 'x' ['1'] rfl (.inl rfl)
    cases hzero
  · intro h
    have hadjacent := h ['1', '_', '.', '_', '5'] ['_', '5'] rfl
    exact absurd hadjacent (by decide)

end Decimal

end DeskCalculator
