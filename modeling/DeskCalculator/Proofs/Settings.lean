import DeskCalculator.Evaluation
import DeskCalculator.Proofs.Json.RoundTrip

namespace DeskCalculator.Settings

open Json (Members)

variable {members : Members} {text : String}

/-- The members of an object as pairs name just these members. -/
theorem named_members (members : Members) :
    named (members.map fun (key, value) => (Json.str key, value)) = members := by
  simp [named, List.filterMap_map]

theorem read_saved (hexact : (Json.obj members).isExact = true) (hsave : save members = .ok text) :
    Json.read text = .ok (.obj members) := by
  unfold save at hsave
  split at hsave
  · next hprint =>
    cases hsave
    exact Json.read_print hexact hprint
  · cases hsave

theorem readPairs_saved (hexact : (Json.obj members).isExact = true)
    (hsave : save members = .ok text) :
    readPairs (some text) = .ok (members.map fun (key, value) => (Json.str key, value)) := by
  rw [readPairs, Option.map_some, read_saved hexact hsave]
  rfl

theorem ofFile_saved (hexact : (Json.obj members).isExact = true)
    (hsave : save members = .ok text) :
    ofFile (some text) = .ok (ofArgument members) := by
  rw [ofFile, load, readPairs_saved hexact hsave, Outcome.ok_bind, named_members]
  rfl

/-- One setting of the file is that of the members, or else that of the defaults, or else zero. -/
theorem get_saved (hexact : (Json.obj members).isExact = true) (hsave : save members = .ok text)
    {key : String} (hkey : key ≠ "all") :
    get (some text) key =
      .ok ((members.get? key).getD ((defaults.get? key).getD (.int 0))) := by
  have hkeys : members.keys.Nodup := of_decide_eq_true (Bool.and_eq_true_iff.mp hexact).1
  rw [get, readPairs_saved hexact hsave, Outcome.ok_bind, if_neg hkey, named_members, complete,
    Members.get_update hkeys]
  cases members.get? key <;> rfl

/-- Settings from a file that members were saved in are those that the members make as an argument:
the text is read as the members, each problem comes to the same evaluation, and each key to the same
value. There is no trace of what the file held before. -/
theorem saved_settings_agree (hexact : (Json.obj members).isExact = true)
    (hsave : save members = .ok text) :
    Json.read text = .ok (.obj members) ∧
      (∀ problem, (fun settings => evaluate settings problem) <$> ofFile (some text) =
        .ok (evaluate (ofArgument members) problem)) ∧
      ∀ key, key ≠ "all" → get (some text) key =
        .ok ((members.get? key).getD ((defaults.get? key).getD (.int 0))) := by
  refine ⟨read_saved hexact hsave, ?_, fun key hkey => get_saved hexact hsave hkey⟩
  intro problem
  rw [ofFile_saved hexact hsave]
  rfl

/-- Members with a key that is no setting, values within values, and characters that take one escape
or two. -/
def nested : Members :=
  [("placeholder", .str "\"-\"\n😀"),
   ("extra", .arr [.null, .obj [("", .int (10 ^ 30)), ("é", .arr [])], .str ""]),
   ("cos_max_terms", .int (-3))]

theorem saved_settings_agree_nested :
    (Json.obj nested).isExact = true ∧
      ∃ text, save nested = .ok text ∧ Json.read text = .ok (.obj nested) ∧
        get (some text) "cos_max_terms" = .ok (.int (-3)) ∧
        get (some text) "sqrt_max_iterations" = .ok (.int 100) ∧
        get (some text) "nothing" = .ok (.int 0) := by
  have hexact : (Json.obj nested).isExact = true := by decide
  have hprint : (Json.obj nested).isPrintable = true := by decide
  have hsave : save nested = .ok (Json.print (.obj nested)) := if_pos hprint
  obtain ⟨hread, -, hget⟩ := saved_settings_agree hexact hsave
  exact ⟨hexact, _, hsave, hread, hget _ (by decide), hget _ (by decide), hget _ (by decide)⟩

end DeskCalculator.Settings
