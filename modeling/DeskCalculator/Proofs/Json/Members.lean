import DeskCalculator.Json

namespace DeskCalculator.Json.Members

variable {members changes : Members} {k key : String} {value : Json}

def keys (members : Members) : List String := members.map Prod.fst

theorem get_cons (key : String) (value : Json) (members : Members) (k : String) :
    get? ((key, value) :: members) k = if k = key then some value else members.get? k := by
  by_cases h : k = key
  · simp [get?, h]
  · have hne : (k == key) = false := beq_false_of_ne h
    simp [get?, List.lookup_cons, hne, h]

theorem get_of_not_mem (h : k ∉ members.keys) : members.get? k = none := by
  induction members with
  | nil => rfl
  | cons member members ih =>
    simp only [keys, List.map_cons, List.mem_cons, not_or] at h
    rw [get_cons, if_neg h.1, ih h.2]

theorem get_insert (members : Members) (key : String) (value : Json) (k : String) :
    (members.insert key value).get? k = if k = key then some value else members.get? k := by
  induction members with
  | nil => rw [insert, get_cons]
  | cons member members ih =>
    obtain ⟨first, old⟩ := member
    by_cases hfirst : first = key
    · subst hfirst
      have hinsert : insert ((first, old) :: members) first value = (first, value) :: members :=
        if_pos rfl
      rw [hinsert, get_cons, get_cons]
      split <;> rfl
    · have hinsert : insert ((first, old) :: members) key value =
          (first, old) :: insert members key value := if_neg hfirst
      rw [hinsert, get_cons, get_cons, ih]
      by_cases hk : k = first
      · have hne : ¬k = key := by
          rintro rfl
          exact hfirst hk.symm
        rw [if_pos hk, if_pos hk, if_neg hne]
      · rw [if_neg hk, if_neg hk]

/-- The last change of a key counts, and there is only one. -/
theorem get_update (h : changes.keys.Nodup) (members : Members) (k : String) :
    (members.update changes).get? k = (changes.get? k).or (members.get? k) := by
  induction changes generalizing members with
  | nil => rfl
  | cons change changes ih =>
    obtain ⟨key, value⟩ := change
    obtain ⟨hnew, hrest⟩ := List.nodup_cons.mp h
    have hstep : members.update ((key, value) :: changes) =
        (members.insert key value).update changes := rfl
    rw [hstep, ih hrest, get_insert, get_cons]
    by_cases hk : k = key
    · subst hk
      simp [get_of_not_mem hnew]
    · simp [hk]

theorem insert_of_not_mem (h : key ∉ members.keys) (value : Json) :
    members.insert key value = members ++ [(key, value)] := by
  induction members with
  | nil => rfl
  | cons member members ih =>
    obtain ⟨first, old⟩ := member
    simp only [keys, List.map_cons, List.mem_cons, not_or] at h
    simp [insert, Ne.symm h.1, ih h.2]

theorem update_of_nodup (h : (members ++ changes).keys.Nodup) :
    members.update changes = members ++ changes := by
  induction changes generalizing members with
  | nil => simp [update]
  | cons change changes ih =>
    obtain ⟨key, value⟩ := change
    have hsplit : members ++ (key, value) :: changes = members ++ [(key, value)] ++ changes := by
      simp
    have hnew : key ∉ members.keys := by
      rw [keys, List.map_append, List.map_cons, List.nodup_append] at h
      intro hmem
      exact h.2.2 key hmem key (List.mem_cons_self ..) rfl
    have hstep : members.update ((key, value) :: changes) =
        (members.insert key value).update changes := rfl
    rw [hstep, insert_of_not_mem hnew, hsplit]
    rw [hsplit] at h
    exact ih h

theorem ofList_of_nodup (h : members.keys.Nodup) : ofList members = members := update_of_nodup h

end DeskCalculator.Json.Members
