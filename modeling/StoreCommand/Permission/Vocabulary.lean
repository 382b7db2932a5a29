/-!
# The vocabulary of permissions

Permission lists are checked against a vocabulary, a finite set of names that always knows the name
`none`.  A vocabulary keeps its names strictly increasing by code points, so two vocabularies with
the same names are equal.
-/

namespace StoreCommand

def nonePermission : String := "none"

/-! ### Increasing lists of names -/

/-- Insert a name into an increasing list, unless it is there already. -/
def insertName (name : String) : List String → List String
  | [] => [name]
  | first :: rest =>
    if name < first then name :: first :: rest
    else if name = first then first :: rest
    else first :: insertName name rest

theorem mem_insertName {name other : String} {names : List String} :
    other ∈ insertName name names ↔ other = name ∨ other ∈ names := by
  induction names with
  | nil => simp [insertName]
  | cons first rest ih =>
    unfold insertName
    split
    · simp
    · split
      · rename_i heq
        simp [heq]
      · simp [ih, or_left_comm]

theorem pairwise_insertName {name : String} {names : List String} (h : names.Pairwise (· < ·)) :
    (insertName name names).Pairwise (· < ·) := by
  induction names with
  | nil => simp [insertName]
  | cons first rest ih =>
    rcases List.pairwise_cons.1 h with ⟨hfirst, hrest⟩
    unfold insertName
    split
    · rename_i hlt
      refine List.pairwise_cons.2 ⟨?_, h⟩
      intro other hother
      rcases List.mem_cons.1 hother with rfl | hother
      · exact hlt
      · exact String.lt_trans hlt (hfirst other hother)
    · split
      · exact h
      · rename_i hlt hne
        refine List.pairwise_cons.2 ⟨?_, ih hrest⟩
        intro other hother
        rcases mem_insertName.1 hother with rfl | hother
        · rcases String.le_total first other with hle | hle
          · exact Decidable.byContradiction fun hnot =>
              hne (String.le_antisymm (String.not_lt.1 hnot) hle)
          · exact absurd (String.le_antisymm hle (String.not_lt.1 hlt)) hne
        · exact hfirst other hother

/-! ### Vocabularies -/

/-- A set of permission names that contains `none`. -/
structure Vocabulary where
  names : List String
  increasing : names.Pairwise (· < ·)
  none_mem : nonePermission ∈ names
  deriving DecidableEq, Repr

namespace Vocabulary

/-- The vocabulary of the given names; order and repetition do not matter. -/
def ofNames (names : List String) : Vocabulary where
  names := names.foldr insertName [nonePermission]
  increasing := by
    induction names with
    | nil => simp
    | cons name rest ih => exact pairwise_insertName ih
  none_mem := by
    induction names with
    | nil => simp
    | cons name rest ih => exact mem_insertName.2 (Or.inr ih)

def standard : Vocabulary :=
  ofNames [nonePermission, "add", "edit", "delete", "read"]

def knows (vocabulary : Vocabulary) (name : String) : Bool :=
  vocabulary.names.contains name

theorem knows_ofNames {names : List String} {name : String} :
    (ofNames names).knows name = true ↔ name ∈ names ∨ name = nonePermission := by
  simp only [knows, List.contains_eq_mem, decide_eq_true_eq]
  induction names with
  | nil => simp [ofNames]
  | cons first rest ih =>
    have hcons : (ofNames (first :: rest)).names = insertName first (ofNames rest).names := rfl
    rw [hcons, mem_insertName, ih, List.mem_cons, or_assoc]

end Vocabulary

end StoreCommand
