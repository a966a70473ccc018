import DeskCalculator.Proofs.Json.Members
import DeskCalculator.Proofs.Json.Numbers
import DeskCalculator.Proofs.Json.Strings
import DeskCalculator.Proofs.Outcome

namespace DeskCalculator.Json

variable {value : Json} {depth bound : Nat} {c : Char} {cs rest : List Char}

mutual

/-- Whether all numbers are whole ones, and the keys of each object differ. -/
def isExact : Json → Bool
  | real _ => false
  | arr items => areExact items
  | obj members => decide (Members.keys members).Nodup && haveExact members
  | _ => true

def areExact : List Json → Bool
  | [] => true
  | item :: items => isExact item && areExact items

def haveExact : List (String × Json) → Bool
  | [] => true
  | (_, value) :: members => isExact value && haveExact members

end

theorem skip_newline (depth : Nat) (cs : List Char) : skip (newline depth ++ cs) = skip cs := by
  have hblank : ∀ c ∈ newline depth, isSpace c = true := by
    intro c hc
    rcases List.mem_cons.mp hc with rfl | hc
    · rfl
    · rw [List.eq_of_mem_replicate hc]
      rfl
  exact List.dropWhile_append_of_pos hblank

theorem skip_of_not_space (h : isSpace c = false) (cs : List Char) : skip (c :: cs) = c :: cs :=
  List.dropWhile_cons_of_neg (by simp [h])

theorem readValue_skip (h : skip cs = skip rest) (bound : Nat) :
    readValue bound cs = readValue bound rest := by
  cases bound with
  | zero => rfl
  | succ bound => rw [readValue, readValue, h]

theorem readItems_skip (h : skip cs = skip rest) (bound : Nat) :
    readItems bound cs = readItems bound rest := by
  cases bound with
  | zero => rfl
  | succ bound => rw [readItems, readItems, readValue_skip h]

theorem readMembers_skip (h : skip cs = skip rest) (bound : Nat) :
    readMembers bound cs = readMembers bound rest := by
  cases bound with
  | zero => rfl
  | succ bound => rw [readMembers, readMembers, h]

/-- What a value begins with. -/
def Begins (c : Char) : Prop := isSpace c = false ∧ c ≠ ']'

theorem begins_digit (h : c.isDigit = true) : Begins c := by
  have hne {d : Char} (hd : d.isDigit = false) : c ≠ d := (ne_of_isDigit h hd).symm
  simp [Begins, isSpace, hne (d := ' ') rfl, hne (d := '\t') rfl, hne (d := '\n') rfl,
    hne (d := '\r') rfl, hne (d := ']') rfl]

theorem printAt_begins (h : isExact value = true) (depth : Nat) :
    ∃ c cs, printAt depth value = c :: cs ∧ Begins c := by
  match value with
  | null => exact ⟨'n', _, rfl, rfl, by decide⟩
  | bool true => exact ⟨'t', _, rfl, rfl, by decide⟩
  | bool false => exact ⟨'f', _, rfl, rfl, by decide⟩
  | int m =>
    obtain ⟨c, cs, hcons, hc⟩ := toString_eq_cons m
    refine ⟨c, cs, hcons, ?_⟩
    rcases hc with rfl | hc
    · exact ⟨rfl, by decide⟩
    · exact begins_digit hc
  | real literal => simp [isExact] at h
  | str s => exact ⟨'\x22', _, rfl, rfl, by decide⟩
  | arr [] => exact ⟨'[', _, rfl, rfl, by decide⟩
  | arr (item :: items) => exact ⟨'[', _, rfl, rfl, by decide⟩
  | obj [] => exact ⟨'\x7b', _, rfl, rfl, by decide⟩
  | obj ((key, value) :: members) => exact ⟨'\x7b', _, rfl, rfl, by decide⟩

theorem readValue_scalar (hspace : isSpace c = false) (hquote : c ≠ '\x22') (hbracket : c ≠ '[')
    (hbrace : c ≠ '\x7b') (cs : List Char) (bound : Nat) :
    readValue (bound + 1) (c :: cs) = readScalar (c :: cs) := by
  simp [readValue, skip_of_not_space hspace, hquote, hbracket, hbrace]

theorem readValue_int (h : Stops rest) (m : Int) (bound : Nat) :
    readValue (bound + 1) ((toString m).toList ++ rest) =
      if isPrintable (int m) then .ok (int m, rest) else .error .tooManyDigits := by
  have hread := readScalar_int h m
  obtain ⟨c, cs, hcons, hc⟩ := toString_eq_cons m
  rw [hcons, List.cons_append] at hread ⊢
  rw [← hread]
  rcases hc with rfl | hc
  · exact readValue_scalar rfl (by decide) (by decide) (by decide) _ bound
  · have hne {d : Char} (hd : d.isDigit = false) : c ≠ d := (ne_of_isDigit hc hd).symm
    exact readValue_scalar (begins_digit hc).1 (hne rfl) (hne rfl) (hne rfl) _ bound

theorem readValue_items (h : Begins c) (cs : List Char) (depth bound : Nat) :
    readValue (bound + 1) ('[' :: (newline depth ++ c :: cs)) =
      (readItems bound (c :: cs)).map fun (items, rest) => (arr items, rest) := by
  obtain ⟨hspace, hclose⟩ := h
  simp [readValue, skip_of_not_space (c := '[') rfl, skip_newline, skip_of_not_space hspace, hclose]

theorem readValue_members (cs : List Char) (depth bound : Nat) :
    readValue (bound + 1) ('\x7b' :: (newline depth ++ '\x22' :: cs)) =
      (readMembers bound ('\x22' :: cs)).map fun (pairs, rest) =>
        (obj (Members.ofList pairs), rest) := by
  simp [readValue, skip_of_not_space (c := '\x7b') rfl, skip_newline,
    skip_of_not_space (c := '\x22') rfl]

/-- Every value is read back whose text is not longer than `bound`. -/
def ReadsBack (bound : Nat) : Prop :=
  ∀ (value : Json) (depth : Nat) (rest : List Char), isExact value = true →
    isPrintable value = true → (printAt depth value).length ≤ bound → Stops rest →
    readValue bound (printAt depth value ++ rest) = .ok (value, rest)

section
variable {item : Json} {items : List Json} {behind more : List Char}

theorem printItems_append (item : Json) (items : List Json) (depth : Nat) (cs : List Char) :
    printItems depth (item :: items) ++ cs =
      ',' :: (newline depth ++ (printAt depth item ++ (printItems depth items ++ cs))) := by
  simp [printItems]

theorem stops_items (depth : Nat) (items : List Json) (outer : Nat) (rest : List Char) :
    Stops (printItems depth items ++ (newline outer ++ ']' :: rest)) := by
  cases items with
  | nil => exact stops_newline outer _
  | cons item items => exact stops_comma _

theorem readItems_last (h : readValue bound cs = .ok (item, behind))
    (hskip : skip behind = ']' :: rest) : readItems (bound + 1) cs = .ok ([item], rest) := by
  rw [readItems, h, Outcome.ok_bind]
  simp only [hskip]
  rfl

theorem readItems_more (h : readValue bound cs = .ok (item, behind))
    (hskip : skip behind = ',' :: more) (hmore : readItems bound more = .ok (items, rest)) :
    readItems (bound + 1) cs = .ok (item :: items, rest) := by
  rw [readItems, h, Outcome.ok_bind]
  simp only [hskip, hmore, Outcome.ok_bind]
  rfl

theorem readItems_printItems (h : ∀ b < bound, ReadsBack b)
    (hexact : areExact (item :: items) = true) (hprint : arePrintable (item :: items) = true)
    (depth : Nat) (hbound : (printAt depth item ++ printItems depth items).length < bound)
    (outer : Nat) (rest : List Char) :
    readItems bound (printAt depth item ++
        (printItems depth items ++ (newline outer ++ ']' :: rest))) =
      .ok (item :: items, rest) := by
  induction items generalizing item bound with
  | nil =>
    obtain ⟨bound, rfl⟩ : ∃ b, bound = b + 1 := ⟨bound - 1, by omega⟩
    obtain ⟨hitem, -⟩ := Bool.and_eq_true_iff.mp hexact
    obtain ⟨hitem', -⟩ := Bool.and_eq_true_iff.mp hprint
    rw [List.length_append] at hbound
    have hread := h bound (Nat.lt_succ_self bound) item depth _ hitem hitem' (by omega)
      (stops_items depth [] outer rest)
    apply readItems_last hread
    rw [printItems, List.nil_append, skip_newline, skip_of_not_space rfl]
  | cons next more ih =>
    obtain ⟨bound, rfl⟩ : ∃ b, bound = b + 1 := ⟨bound - 1, by omega⟩
    obtain ⟨hitem, hmore⟩ := Bool.and_eq_true_iff.mp hexact
    obtain ⟨hitem', hmore'⟩ := Bool.and_eq_true_iff.mp hprint
    have hlength := congrArg List.length (printItems_append next more depth [])
    simp only [List.append_nil, List.length_cons, List.length_append] at hlength hbound
    have hread := h bound (Nat.lt_succ_self bound) item depth _ hitem hitem' (by omega)
      (stops_items depth (next :: more) outer rest)
    rw [printItems_append] at hread ⊢
    apply readItems_more hread (skip_of_not_space rfl _)
    rw [readItems_skip (skip_newline depth _)]
    apply ih (fun b hb => h b (by omega)) hmore hmore'
    rw [List.length_append]
    omega

end

section
variable {key : String} {members : Members} {behind more : List Char}

theorem printMembers_append (key : String) (value : Json) (members : Members) (depth : Nat)
    (cs : List Char) :
    printMembers depth ((key, value) :: members) ++ cs =
      ',' :: (newline depth ++ (printString key ++ (':' :: ' ' :: (printAt depth value ++
        (printMembers depth members ++ cs))))) := by
  simp [printMembers]

theorem stops_members (depth : Nat) (members : Members) (outer : Nat) (rest : List Char) :
    Stops (printMembers depth members ++ (newline outer ++ '\x7d' :: rest)) := by
  cases members with
  | nil => exact stops_newline outer _
  | cons member members => exact stops_comma _

theorem readMembers_last (h : readValue bound cs = .ok (value, behind))
    (hskip : skip behind = '\x7d' :: rest) :
    readMembers (bound + 1) (printString key ++ (':' :: ' ' :: cs)) =
      .ok ([(key, value)], rest) := by
  have hblank : skip (' ' :: cs) = skip cs := rfl
  rw [printString_append, readMembers]
  simp only [skip_of_not_space (c := '\x22') rfl, readString_escaped, Outcome.ok_bind,
    skip_of_not_space (c := ':') rfl, readValue_skip hblank, h, hskip]
  rfl

theorem readMembers_refused (key : String) {refusal : Refusal}
    (h : readValue bound cs = .error refusal) :
    readMembers (bound + 1) (printString key ++ (':' :: ' ' :: cs)) = .error refusal := by
  have hblank : skip (' ' :: cs) = skip cs := rfl
  rw [printString_append, readMembers]
  simp only [skip_of_not_space (c := '\x22') rfl, readString_escaped, Outcome.ok_bind,
    skip_of_not_space (c := ':') rfl, readValue_skip hblank, h]
  rfl

theorem readMembers_more (h : readValue bound cs = .ok (value, behind))
    (hskip : skip behind = ',' :: more) (hmore : readMembers bound more = .ok (members, rest)) :
    readMembers (bound + 1) (printString key ++ (':' :: ' ' :: cs)) =
      .ok ((key, value) :: members, rest) := by
  have hblank : skip (' ' :: cs) = skip cs := rfl
  rw [printString_append, readMembers]
  simp only [skip_of_not_space (c := '\x22') rfl, readString_escaped, Outcome.ok_bind,
    skip_of_not_space (c := ':') rfl, readValue_skip hblank, h, hskip, hmore]
  rfl

theorem readMembers_printMembers (h : ∀ b < bound, ReadsBack b)
    (hexact : haveExact ((key, value) :: members) = true)
    (hprint : havePrintable ((key, value) :: members) = true)
    (depth : Nat) (hbound : (printAt depth value ++ printMembers depth members).length < bound)
    (outer : Nat) (rest : List Char) :
    readMembers bound (printString key ++ (':' :: ' ' :: (printAt depth value ++
        (printMembers depth members ++ (newline outer ++ '\x7d' :: rest))))) =
      .ok ((key, value) :: members, rest) := by
  induction members generalizing key value bound with
  | nil =>
    obtain ⟨bound, rfl⟩ : ∃ b, bound = b + 1 := ⟨bound - 1, by omega⟩
    obtain ⟨hvalue, -⟩ := Bool.and_eq_true_iff.mp hexact
    obtain ⟨hvalue', -⟩ := Bool.and_eq_true_iff.mp hprint
    rw [List.length_append] at hbound
    have hread := h bound (Nat.lt_succ_self bound) value depth _ hvalue hvalue' (by omega)
      (stops_members depth [] outer rest)
    apply readMembers_last hread
    rw [printMembers, List.nil_append, skip_newline, skip_of_not_space rfl]
  | cons next more ih =>
    obtain ⟨nextKey, nextValue⟩ := next
    obtain ⟨bound, rfl⟩ : ∃ b, bound = b + 1 := ⟨bound - 1, by omega⟩
    obtain ⟨hvalue, hmore⟩ := Bool.and_eq_true_iff.mp hexact
    obtain ⟨hvalue', hmore'⟩ := Bool.and_eq_true_iff.mp hprint
    have hlength := congrArg List.length (printMembers_append nextKey nextValue more depth [])
    simp only [List.append_nil, List.length_cons, List.length_append] at hlength hbound
    have hread := h bound (Nat.lt_succ_self bound) value depth _ hvalue hvalue' (by omega)
      (stops_members depth ((nextKey, nextValue) :: more) outer rest)
    rw [printMembers_append] at hread ⊢
    apply readMembers_more hread (skip_of_not_space rfl _)
    rw [readMembers_skip (skip_newline depth _)]
    apply ih (fun b hb => h b (by omega)) hmore hmore'
    rw [List.length_append]
    omega

end

theorem readValue_arr (h : ∀ b < bound, ReadsBack b) {items : List Json} (depth : Nat)
    (hexact : areExact items = true) (hprint : arePrintable items = true)
    (hbound : (printAt depth (arr items)).length ≤ bound + 1) (rest : List Char) :
    readValue (bound + 1) (printAt depth (arr items) ++ rest) = .ok (arr items, rest) := by
  cases items with
  | nil => rfl
  | cons item items =>
    have htext : ∀ cs, printAt depth (arr (item :: items)) ++ cs =
        '[' :: (newline (depth + 1) ++ (printAt (depth + 1) item ++
          (printItems (depth + 1) items ++ (newline depth ++ ']' :: cs)))) := by simp [printAt]
    have hlength := congrArg List.length (htext [])
    simp only [List.append_nil, List.length_cons, List.length_append] at hlength
    have hread := readItems_printItems h hexact hprint (depth + 1)
      (by rw [List.length_append]; omega) depth rest
    obtain ⟨c, cs, hcons, hbegins⟩ :=
      printAt_begins (Bool.and_eq_true_iff.mp hexact).1 (depth + 1)
    rw [hcons, List.cons_append] at hread
    rw [htext, hcons, List.cons_append, readValue_items hbegins, hread]
    rfl

theorem readValue_obj (h : ∀ b < bound, ReadsBack b) {members : Members} (depth : Nat)
    (hkeys : members.keys.Nodup) (hexact : haveExact members = true)
    (hprint : havePrintable members = true)
    (hbound : (printAt depth (obj members)).length ≤ bound + 1) (rest : List Char) :
    readValue (bound + 1) (printAt depth (obj members) ++ rest) = .ok (obj members, rest) := by
  cases members with
  | nil => rfl
  | cons member members =>
    obtain ⟨key, value⟩ := member
    have htext : ∀ cs, printAt depth (obj ((key, value) :: members)) ++ cs =
        '\x7b' :: (newline (depth + 1) ++ (printString key ++ (':' :: ' ' ::
          (printAt (depth + 1) value ++ (printMembers (depth + 1) members ++
            (newline depth ++ '\x7d' :: cs)))))) := by simp [printAt]
    have hlength := congrArg List.length (htext [])
    simp only [List.append_nil, List.length_cons, List.length_append] at hlength
    have hread := readMembers_printMembers h hexact hprint (depth + 1)
      (by rw [List.length_append]; omega) depth rest
    rw [printString_append] at hread
    rw [htext, printString_append, readValue_members, hread]
    simp [Except.map, Members.ofList_of_nodup hkeys]

theorem readsBack (bound : Nat) : ReadsBack bound := by
  -- strong induction, as each item of a list is read with a bound of its own
  induction bound using Nat.strongRecOn with
  | ind bound ih =>
    intro value depth rest hexact hprint hbound hrest
    obtain ⟨bound, rfl⟩ : ∃ b, bound = b + 1 := by
      obtain ⟨c, cs, hcons, -⟩ := printAt_begins hexact depth
      rw [hcons, List.length_cons] at hbound
      exact ⟨bound - 1, by omega⟩
    have hless : ∀ b < bound, ReadsBack b := fun b hb => ih b (by omega)
    cases value with
    | null => rfl
    | bool b => cases b <;> rfl
    | int m => rw [printAt, readValue_int hrest, if_pos hprint]
    | real literal => simp [isExact] at hexact
    | str s =>
      rw [printAt, printString_append]
      simp [readValue, skip_of_not_space (c := '\x22') rfl, readString_escaped, Except.map]
    | arr items => exact readValue_arr hless depth hexact hprint hbound rest
    | obj members =>
      obtain ⟨hkeys, hmembers⟩ := Bool.and_eq_true_iff.mp hexact
      exact readValue_obj hless depth (of_decide_eq_true hkeys) hmembers hprint hbound rest

/-- The text of a member with too many digits is refused. -/
theorem read_member_refused (key : String) {m : Int} (h : isPrintable (int m) = false) :
    read (print (obj [(key, int m)])) = .error .tooManyDigits := by
  have htext : printAt 0 (obj [(key, int m)]) =
      '\x7b' :: (newline 1 ++ (printString key ++ (':' :: ' ' ::
        ((toString m).toList ++ (newline 0 ++ ['\x7d']))))) := by simp [printAt, printMembers]
  have hlength : ∃ n, (print (obj [(key, int m)])).length = n + 1 := by
    rw [print, String.length_ofList, htext, List.length_cons]
    exact ⟨_, rfl⟩
  obtain ⟨n, hlength⟩ := hlength
  have hbound : 2 * (n + 1) + 1 = 2 * n + 1 + 1 + 1 := by omega
  have hvalue := readValue_int (stops_newline 0 ['\x7d']) m (2 * n)
  rw [h, if_neg Bool.false_ne_true] at hvalue
  have hmembers := readMembers_refused key hvalue
  rw [printString_append] at hmembers
  rw [read, hlength, hbound, print, String.toList_ofList, htext, printString_append,
    readValue_members, hmembers]
  rfl

/-- Text that was printed is read as the value that was printed. -/
theorem read_print (hexact : isExact value = true) (hprint : isPrintable value = true) :
    read (print value) = .ok value := by
  have hlength : (printAt 0 value).length ≤ 2 * (print value).length + 1 := by
    rw [print, String.length_ofList]
    omega
  have hread := readsBack _ value 0 [] hexact hprint hlength stops_nil
  rw [List.append_nil] at hread
  rw [read, print, String.toList_ofList, ← print, hread]
  rfl

end DeskCalculator.Json
