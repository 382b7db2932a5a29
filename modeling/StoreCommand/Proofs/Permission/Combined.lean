import Mathlib.Data.List.TakeWhile
import StoreCommand.Proofs.Permission.Entries

/-!
# Permission lists put together

Two permission lists with a comma between them make one list.  It is read like its two parts, the
first one first: an unknown name in the first part hides everything behind it, and otherwise the
lists of both parts are put together and collapse once more (`read_append`).  Collapsing early loses
nothing, because a part that collapses makes the whole collapse (`collapse_collapse_append`).

A text without a comma is the list of its only entry (`read_of_notMem_comma`), and what reading
returns is written as a text that is read in the same way (`read_joined_of_read`).  So reading is
determined on every text, from comma to comma.
-/

namespace StoreCommand

theorem trimBlanks_eq_nil_iff {text : List Char} :
    trimBlanks text = [] ↔ text.all isBlank = true := by
  rw [trimBlanks, List.reverse_eq_nil_iff, List.dropWhile_eq_nil_iff, List.all_eq_true]
  constructor
  · intro h c hc
    -- the blanks in front are dropped first, and what is left of the rest are blanks, too
    rw [← List.takeWhile_append_dropWhile (p := isBlank) (l := text)] at hc
    rcases List.mem_append.1 hc with hfront | hback
    · exact List.all_eq_true.1 List.all_takeWhile c hfront
    · exact h c (List.mem_reverse.2 hback)
  · intro h c hc
    exact h c ((List.dropWhile_suffix isBlank).subset (List.mem_reverse.1 hc))

namespace PermissionList

/-- The text without the blanks at its ends. -/
def trimmed (text : String) : String :=
  String.ofList (trimBlanks text.toList)

/-! ### One entry -/

theorem entries_of_notMem_comma {text : String} (h : ',' ∉ text.toList) :
    entries text = if text.toList.all isBlank = true then [] else [trimmed text] := by
  rw [entries, List.splitOn_eq_singleton h, List.map_singleton]
  by_cases hblank : text.toList.all isBlank = true
  · rw [if_pos hblank, trimBlanks_eq_nil_iff.2 hblank]
    rfl
  · have hne : trimBlanks text.toList ≠ [] := fun hnil => hblank (trimBlanks_eq_nil_iff.1 hnil)
    rw [if_neg hblank]
    simp [hne, trimmed]

theorem collapse_singleton (name : String) : collapse [name] = [name] := by
  unfold collapse
  split
  · rename_i hmem
    rw [List.mem_singleton.1 hmem]
  · rfl

/-- A text without a comma lists the name it consists of, or nothing if it has only blanks. -/
theorem read_of_notMem_comma {vocabulary : Vocabulary} {text : String} (h : ',' ∉ text.toList) :
    read vocabulary text =
      if text.toList.all isBlank = true then .ok []
      else if vocabulary.knows (trimmed text) = true then .ok [trimmed text]
      else .error (trimmed text) := by
  rw [read, entries_of_notMem_comma h]
  by_cases hblank : text.toList.all isBlank = true
  · simp only [if_pos hblank]
    rfl
  · simp only [if_neg hblank]
    by_cases hknown : vocabulary.knows (trimmed text) = true
    · rw [List.find?_singleton, hknown]
      exact congrArg Except.ok (collapse_singleton _)
    · rw [List.find?_singleton, if_neg hknown, Bool.eq_false_iff.2 hknown]
      rfl

/-! ### Two lists -/

theorem collapse_collapse_append (front back : List String) :
    collapse (collapse front ++ collapse back) = collapse (front ++ back) := by
  -- wherever `none` is, it is in the whole, and it is still there when a part has collapsed
  by_cases hfront : nonePermission ∈ front
  · simp [collapse, hfront]
  · by_cases hback : nonePermission ∈ back
    · simp [collapse, hfront, hback]
    · simp [collapse, hfront, hback]

theorem read_append (vocabulary : Vocabulary) (front back : String) :
    read vocabulary (front ++ "," ++ back) =
      match read vocabulary front, read vocabulary back with
      | .error unknown, _ => .error unknown
      | .ok _, .error unknown => .error unknown
      | .ok names, .ok more => .ok (collapse (names ++ more)) := by
  simp only [read]
  rw [String.append_assoc, entries_append, List.find?_append]
  cases (entries front).find? fun name => !vocabulary.knows name with
  | some unknown => rfl
  | none =>
    rw [Option.none_or]
    cases (entries back).find? fun name => !vocabulary.knows name with
    | some unknown => rfl
    | none => exact congrArg Except.ok (collapse_collapse_append _ _).symm

/-! ### Writing and reading again -/

theorem collapsed_of_read {vocabulary : Vocabulary} {text : String} {names : List String}
    (h : read vocabulary text = .ok names) :
    names = [nonePermission] ∨ nonePermission ∉ names := by
  rcases collapsed_of_grants (read_eq_ok_iff.1 h) with hnone | ⟨hnone, -⟩
  · exact Or.inl hnone
  · exact Or.inr hnone

theorem read_joined_of_read {vocabulary : Vocabulary} {text : String} {names : List String}
    (h : read vocabulary text = .ok names) : read vocabulary (joined names) = .ok names :=
  read_eq_ok_iff.2 (grants_joined_of_collapsed (collapsed_of_grants (read_eq_ok_iff.1 h)))

/-- Reading a permission list goes from comma to comma, and what it returns is in normal form. -/
theorem read_combined (vocabulary : Vocabulary) :
    (∀ front back, read vocabulary (front ++ "," ++ back) =
      match read vocabulary front, read vocabulary back with
      | .error unknown, _ => .error unknown
      | .ok _, .error unknown => .error unknown
      | .ok names, .ok more => .ok (collapse (names ++ more))) ∧
    (∀ text : String, ',' ∉ text.toList → read vocabulary text =
      if text.toList.all isBlank = true then .ok []
      else if vocabulary.knows (trimmed text) = true then .ok [trimmed text]
      else .error (trimmed text)) ∧
    (∀ text names, read vocabulary text = .ok names →
      (names = [nonePermission] ∨ nonePermission ∉ names) ∧
        read vocabulary (joined names) = .ok names) := by
  refine ⟨read_append vocabulary, fun text => read_of_notMem_comma, ?_⟩
  intro text names h
  exact ⟨collapsed_of_read h, read_joined_of_read h⟩

theorem read_combined_standard :
    (',' ∉ "\t edit ".toList ∧ read .standard "\t edit " = .ok ["edit"]) ∧
    (',' ∉ "edit all".toList ∧ read .standard "edit all" = .error "edit all") ∧
    (read .standard " read,, none ,add" = .ok ["none"] ∧
      (["none"] = [nonePermission] ∨ nonePermission ∉ ["none"]) ∧
      read .standard (joined ["none"]) = .ok ["none"]) ∧
    (read .standard ",read , add,read" = .ok ["read", "add", "read"] ∧
      (["read", "add", "read"] = [nonePermission] ∨ nonePermission ∉ ["read", "add", "read"]) ∧
      read .standard (joined ["read", "add", "read"]) = .ok ["read", "add", "read"]) := by
  have hedit : ',' ∉ "\t edit ".toList := by decide
  have hunknown : ',' ∉ "edit all".toList := by decide
  have hnone : read .standard " read,, none ,add" = .ok ["none"] := by decide +kernel
  have hlist : read .standard ",read , add,read" = .ok ["read", "add", "read"] := by
    decide +kernel
  refine ⟨⟨hedit, ?_⟩, ⟨hunknown, ?_⟩, ⟨hnone, (read_combined .standard).2.2 _ _ hnone⟩,
    ⟨hlist, (read_combined .standard).2.2 _ _ hlist⟩⟩
  · rw [(read_combined .standard).2.1 _ hedit]
    decide +kernel
  · rw [(read_combined .standard).2.1 _ hunknown]
    decide +kernel

end PermissionList

end StoreCommand
