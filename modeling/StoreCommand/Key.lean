import StoreCommand.Text.Word

/-!
# Keys

Values are stored under keys.  The name of a key is an ASCII letter followed by ASCII letters,
digits and underscores, so a key is written as a bare word.
-/

namespace StoreCommand

def isKeyName (text : String) : Bool :=
  match text.toList with
  | [] => false
  | c :: rest => c.isAlpha && rest.all isWordChar

theorem isWordChar_of_isKeyName {text : String} (h : isKeyName text = true) :
    text.toList ≠ [] ∧ ∀ c ∈ text.toList, isWordChar c = true := by
  unfold isKeyName at h
  split at h
  · simp at h
  · rename_i c rest htext
    rw [htext]
    simp only [Bool.and_eq_true, List.all_eq_true] at h
    refine ⟨by simp, ?_⟩
    intro d hd
    rcases List.mem_cons.1 hd with rfl | hd
    · simp [isWordChar, Char.isAlphanum, h.1]
    · exact h.2 d hd

end StoreCommand
