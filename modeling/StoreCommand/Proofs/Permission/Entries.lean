import StoreCommand.Permission.List
import StoreCommand.Text.Quoted

/-!
# Entries of permission lists

A permission list is written as names between commas and read by cutting at the commas and trimming
what lies between them.  The two undo each other for the names that can be entries at all: a name
that is not empty, that no blank surrounds and that has no comma (`entries_joined`).  Reading yields
only such names (`isEntry_of_mem_entries`).  Without trimming, blanks around a name are no matter,
so the text of a list determines the list even where reading does not give it back (`joined_inj`).

`Grants` says what a text grants without saying how it is read, and `Readable` describes the lists
that some text grants.
-/

namespace StoreCommand

/-! ### Trimming -/

theorem trimBlanks_subset (text : List Char) : trimBlanks text ⊆ text := by
  intro c hc
  have hback := (List.dropWhile_suffix isBlank).subset (List.mem_reverse.1 hc)
  exact (List.dropWhile_suffix isBlank).subset (List.mem_reverse.1 hback)

theorem isBlank_getLast_trimBlanks {text : List Char} {c : Char}
    (h : c ∈ (trimBlanks text).getLast?) : isBlank c = false := by
  rw [trimBlanks, List.getLast?_reverse] at h
  have hnot := List.head?_dropWhile_not isBlank (text.dropWhile isBlank).reverse
  rw [Option.mem_def.1 h] at hnot
  simpa using hnot

theorem isBlank_head_trimBlanks {text : List Char} {c : Char}
    (h : c ∈ (trimBlanks text).head?) : isBlank c = false := by
  rw [trimBlanks, List.head?_reverse] at h
  -- trimming the back leaves the first character that is no blank in place
  obtain ⟨dropped, happend⟩ :=
    List.dropWhile_suffix isBlank (l := (text.dropWhile isBlank).reverse)
  have hlast : (text.dropWhile isBlank).head? = some c := by
    rw [← List.getLast?_reverse, ← happend, List.getLast?_append, Option.mem_def.1 h]
    rfl
  have hnot := List.head?_dropWhile_not isBlank text
  rw [hlast] at hnot
  simpa using hnot

theorem trimBlanks_eq_self {text : List Char} (hfront : ∀ c ∈ text.head?, isBlank c = false)
    (hback : ∀ c ∈ text.getLast?, isBlank c = false) : trimBlanks text = text := by
  have hdrop : ∀ run : List Char, (∀ c ∈ run.head?, isBlank c = false) →
      run.dropWhile isBlank = run := by
    intro run hrun
    cases run with
    | nil => rfl
    | cons c tail => simp [hrun c rfl]
  rw [trimBlanks, hdrop text hfront, hdrop, List.reverse_reverse]
  intro c hc
  exact hback c (by simpa using hc)

namespace PermissionList

/-! ### Names of entries -/

/-- A name that an entry can have: it is not empty, no blank surrounds it, and it has no comma. -/
structure IsEntry (name : String) : Prop where
  ne_empty : name ≠ ""
  front : ∀ c ∈ name.toList.head?, isBlank c = false
  back : ∀ c ∈ name.toList.getLast?, isBlank c = false
  no_comma : ',' ∉ name.toList

theorem isEntry_none : IsEntry nonePermission := by
  constructor <;> simp [nonePermission] <;> decide

theorem splitOn_comma (text : List Char) :
    ∀ piece ∈ text.splitOn ',', ',' ∉ piece ∧ piece ⊆ text := by
  induction text with
  | nil => simp
  | cons c tail ih =>
    intro piece hpiece
    rw [List.splitOn_cons_eq_if_modifyHead] at hpiece
    split at hpiece
    · -- at a comma an empty piece begins
      rcases List.mem_cons.1 hpiece with rfl | hpiece
      · simp
      · rcases ih piece hpiece with ⟨hcomma, hsubset⟩
        exact ⟨hcomma, fun d hd => List.mem_cons_of_mem c (hsubset hd)⟩
    · -- any other character stands in front of the first piece
      rename_i hc
      cases hpieces : tail.splitOn ',' with
      | nil => exact absurd hpieces (List.splitOn_ne_nil ',' tail)
      | cons first others =>
        rw [hpieces] at hpiece ih
        rcases List.mem_cons.1 hpiece with rfl | hpiece
        · rcases ih first List.mem_cons_self with ⟨hcomma, hsubset⟩
          constructor
          · intro hmem
            rcases List.mem_cons.1 hmem with heq | hmem
            · exact hc (by simp [← heq])
            · exact hcomma hmem
          · exact List.cons_subset_cons c hsubset
        · rcases ih piece (List.mem_cons_of_mem first hpiece) with ⟨hcomma, hsubset⟩
          exact ⟨hcomma, fun d hd => List.mem_cons_of_mem c (hsubset hd)⟩

/-- The entries of a text have names of entries, made of characters of the text. -/
theorem isEntry_of_mem_entries {text name : String} (h : name ∈ entries text) :
    IsEntry name ∧ name.toList ⊆ text.toList := by
  simp only [entries, List.mem_map, List.mem_filter, decide_eq_true_eq] at h
  rcases h with ⟨trimmed, ⟨⟨piece, hpiece, rfl⟩, hne⟩, rfl⟩
  rcases splitOn_comma text.toList piece hpiece with ⟨hcomma, hsubset⟩
  rw [String.toList_ofList]
  refine ⟨⟨?_, ?_, ?_, ?_⟩, fun c hc => hsubset (trimBlanks_subset piece hc)⟩
  · intro hempty
    exact hne (by simpa using congrArg String.toList hempty)
  · rw [String.toList_ofList]
    exact fun c hc => isBlank_head_trimBlanks hc
  · rw [String.toList_ofList]
    exact fun c hc => isBlank_getLast_trimBlanks hc
  · rw [String.toList_ofList]
    exact fun hmem => hcomma (trimBlanks_subset piece hmem)

/-- A comma ends an entry whatever stands on its sides. -/
theorem entries_append (front back : String) :
    entries (front ++ ("," ++ back)) = entries front ++ entries back := by
  have htext : (front ++ ("," ++ back)).toList = front.toList ++ ',' :: back.toList := by
    rw [String.toList_append, String.toList_append]
    rfl
  have hsplit : (front.toList ++ ',' :: back.toList).splitOn ',' =
      front.toList.splitOn ',' ++ back.toList.splitOn ',' :=
    List.splitOnP_append_cons front.toList back.toList (by decide)
  rw [entries, htext, hsplit, List.map_append, List.filter_append, List.map_append]
  rfl

theorem entries_joined_eq_flatMap (names : List String) :
    entries (joined names) = names.flatMap entries := by
  induction names with
  | nil => rfl
  | cons first others ih =>
    cases others with
    | nil =>
      rw [joined, String.intercalate_singleton, List.flatMap_singleton]
    | cons second others =>
      rw [joined, String.intercalate_cons_cons, String.append_assoc, entries_append, ← joined, ih,
        ← List.flatMap_cons]

theorem entries_of_isEntry {name : String} (h : IsEntry name) : entries name = [name] := by
  have hne : name.toList ≠ [] := fun hnil => h.ne_empty (String.toList_eq_nil_iff.1 hnil)
  rw [entries, List.splitOn_eq_singleton h.no_comma, List.map_singleton,
    trimBlanks_eq_self h.front h.back]
  simp [hne]

theorem flatMap_entries {names : List String} (h : ∀ name ∈ names, IsEntry name) :
    names.flatMap entries = names := by
  induction names with
  | nil => rfl
  | cons first others ih =>
    rw [List.flatMap_cons, entries_of_isEntry (h first List.mem_cons_self),
      ih fun name hname => h name (List.mem_cons_of_mem first hname), List.singleton_append]

theorem entries_joined {names : List String} (h : ∀ name ∈ names, IsEntry name) :
    entries (joined names) = names := by
  rw [entries_joined_eq_flatMap, flatMap_entries h]

/-- Other names are trimmed, cut at their commas or left out. -/
example : entries (joined [" add ", "", "b c,\t"]) = ["add", "b c"] := by decide +kernel

/-! ### Names without commas -/

/-- Names that are not empty and have no comma come back when their text is cut at the commas, also
    if blanks surround them. -/
theorem splitOn_joined {names : List String}
    (h : ∀ name ∈ names, name ≠ "" ∧ ',' ∉ name.toList) :
    ((joined names).toList.splitOn ',').filter (· ≠ []) = names.map String.toList := by
  cases names with
  | nil => simp [joined]
  | cons first others =>
    have hcomma : ∀ text ∈ (first :: others).map String.toList, ',' ∉ text := by
      intro text htext
      obtain ⟨name, hname, rfl⟩ := List.mem_map.1 htext
      exact (h name hname).2
    have hempty : ∀ text ∈ (first :: others).map String.toList, text ≠ [] := by
      intro text htext hnil
      obtain ⟨name, hname, rfl⟩ := List.mem_map.1 htext
      exact (h name hname).1 (String.toList_eq_nil_iff.1 hnil)
    have htext : (joined (first :: others)).toList =
        [','].intercalate ((first :: others).map String.toList) := String.toList_intercalate
    rw [htext, List.splitOn_intercalate ',' hcomma (by simp), List.filter_eq_self]
    exact fun text hmem => by simpa using hempty text hmem

theorem joined_inj {names others : List String}
    (hnames : ∀ name ∈ names, name ≠ "" ∧ ',' ∉ name.toList)
    (hothers : ∀ name ∈ others, name ≠ "" ∧ ',' ∉ name.toList)
    (h : joined names = joined others) : names = others := by
  have hsplit := splitOn_joined hnames
  rw [h, splitOn_joined hothers] at hsplit
  exact ((List.map_inj_right fun _ _ => String.toList_injective).1 hsplit).symm

/-! ### What a text grants -/

/-- A text grants `names`: the vocabulary knows all its entries, and `none` among them stands for
    them all. -/
structure Grants (vocabulary : Vocabulary) (text : String) (names : List String) : Prop where
  known : ∀ name ∈ entries text, vocabulary.knows name = true
  collapsed : (nonePermission ∈ entries text ∧ names = [nonePermission]) ∨
    (nonePermission ∉ entries text ∧ names = entries text)

theorem collapsed_iff {names collapsed : List String} :
    collapsed = collapse names ↔ (nonePermission ∈ names ∧ collapsed = [nonePermission]) ∨
      (nonePermission ∉ names ∧ collapsed = names) := by
  unfold collapse
  by_cases hnone : nonePermission ∈ names
  · simp [hnone]
  · simp [hnone]

theorem grants_of_known {vocabulary : Vocabulary} {text : String}
    (h : ∀ name ∈ entries text, vocabulary.knows name = true) :
    Grants vocabulary text (collapse (entries text)) :=
  ⟨h, collapsed_iff.1 rfl⟩

/-- Reading a text returns what it grants, and nothing if it grants nothing. -/
theorem read_eq_ok_iff {vocabulary : Vocabulary} {text : String} {names : List String} :
    read vocabulary text = .ok names ↔ Grants vocabulary text names := by
  unfold read
  constructor
  · intro h
    split at h
    · exact absurd h (by simp)
    · rename_i hnone
      obtain rfl := Except.ok.inj h
      apply grants_of_known
      intro name hname
      simpa using List.find?_eq_none.1 hnone name hname
  · rintro ⟨hknown, hcollapsed⟩
    have hnone : (entries text).find? (fun name => !vocabulary.knows name) = none := by
      refine List.find?_eq_none.2 fun name hname => ?_
      simp [hknown name hname]
    rw [hnone, collapsed_iff.2 hcollapsed]

/-- Reading a text reports its first entry that the vocabulary does not know. -/
theorem read_eq_error_iff {vocabulary : Vocabulary} {text unknown : String} :
    read vocabulary text = .error unknown ↔
      (entries text).find? (fun name => !vocabulary.knows name) = some unknown := by
  unfold read
  split
  · rename_i found hfound
    rw [hfound, Except.error.injEq, Option.some.injEq]
  · rename_i hnone
    simp [hnone]

/-! ### Lists that some text grants -/

/-- A list that reading can return: `none` alone, or known names of entries without it. -/
structure Readable (vocabulary : Vocabulary) (names : List String) : Prop where
  collapsed : names = [nonePermission] ∨ (nonePermission ∉ names ∧
    ∀ name ∈ names, vocabulary.knows name = true ∧ IsEntry name)
  quotable : hasBothQuotes (joined names).toList = false

theorem knows_none (vocabulary : Vocabulary) : vocabulary.knows nonePermission = true := by
  simpa [Vocabulary.knows] using vocabulary.none_mem

/-- A list of known names, written with commas between them, grants itself. -/
theorem grants_joined_of_collapsed {vocabulary : Vocabulary} {names : List String}
    (h : names = [nonePermission] ∨ (nonePermission ∉ names ∧
      ∀ name ∈ names, vocabulary.knows name = true ∧ IsEntry name)) :
    Grants vocabulary (joined names) names := by
  rcases h with rfl | ⟨hnone, hnames⟩
  · -- every vocabulary knows `none`
    have hentries : entries (joined [nonePermission]) = [nonePermission] := by
      apply entries_joined
      intro name hname
      rw [List.mem_singleton.1 hname]
      exact isEntry_none
    refine ⟨?_, Or.inl ⟨by simp [hentries], rfl⟩⟩
    intro name hname
    rw [hentries, List.mem_singleton] at hname
    rw [hname]
    exact knows_none vocabulary
  · have hentries := entries_joined fun name hname => (hnames name hname).2
    refine ⟨?_, Or.inr ⟨by rwa [hentries], hentries.symm⟩⟩
    intro name hname
    rw [hentries] at hname
    exact (hnames name hname).1

theorem grants_joined {vocabulary : Vocabulary} {names : List String}
    (h : Readable vocabulary names) : Grants vocabulary (joined names) names :=
  grants_joined_of_collapsed h.collapsed

theorem collapsed_of_grants {vocabulary : Vocabulary} {text : String} {names : List String}
    (h : Grants vocabulary text names) :
    names = [nonePermission] ∨ (nonePermission ∉ names ∧
      ∀ name ∈ names, vocabulary.knows name = true ∧ IsEntry name) := by
  rcases h.collapsed with ⟨-, hnames⟩ | ⟨hnone, rfl⟩
  · exact Or.inl hnames
  · exact Or.inr ⟨hnone, fun name hname =>
      ⟨h.known name hname, (isEntry_of_mem_entries hname).1⟩⟩

theorem mem_joined {names : List String} {c : Char} (h : c ∈ (joined names).toList) :
    c = ',' ∨ ∃ name ∈ names, c ∈ name.toList := by
  rw [joined] at h
  induction names with
  | nil => simp at h
  | cons first others ih =>
    cases others with
    | nil => exact Or.inr ⟨first, List.mem_cons_self, by simpa using h⟩
    | cons second others =>
      rw [String.intercalate_cons_cons, String.toList_append, String.toList_append,
        List.mem_append, List.mem_append] at h
      rcases h with (hfirst | hcomma) | hothers
      · exact Or.inr ⟨first, List.mem_cons_self, hfirst⟩
      · exact Or.inl (by simpa using hcomma)
      · rcases ih hothers with hcomma | ⟨name, hname, hmem⟩
        · exact Or.inl hcomma
        · exact Or.inr ⟨name, List.mem_cons_of_mem first hname, hmem⟩

theorem mem_joined_of_mem {names : List String} {name : String} (hname : name ∈ names) {c : Char}
    (hc : c ∈ name.toList) : c ∈ (joined names).toList := by
  rw [joined]
  induction names with
  | nil => exact absurd hname (by simp)
  | cons first others ih =>
    cases others with
    | nil =>
      rw [String.intercalate_singleton]
      rwa [← List.mem_singleton.1 hname]
    | cons second others =>
      rw [String.intercalate_cons_cons, String.toList_append, String.toList_append,
        List.mem_append, List.mem_append]
      rcases List.mem_cons.1 hname with rfl | hname
      · exact Or.inl (Or.inl hc)
      · exact Or.inr (ih hname)

/-- The names put together hold both quotes if one of them holds the one and one the other. -/
theorem hasBothQuotes_joined_iff {names : List String} :
    hasBothQuotes (joined names).toList = true ↔
      (∃ name ∈ names, '"' ∈ name.toList) ∧ ∃ name ∈ names, '\'' ∈ name.toList := by
  rw [hasBothQuotes_iff]
  constructor
  · rintro ⟨hdouble, hsingle⟩
    exact ⟨(mem_joined hdouble).resolve_left (by decide),
      (mem_joined hsingle).resolve_left (by decide)⟩
  · rintro ⟨⟨name, hname, hdouble⟩, other, hother, hsingle⟩
    exact ⟨mem_joined_of_mem hname hdouble, mem_joined_of_mem hother hsingle⟩

/-- Which lists reading can return, in terms of their names alone. -/
theorem readable_iff {vocabulary : Vocabulary} {names : List String} :
    Readable vocabulary names ↔
      (names = [nonePermission] ∨ (nonePermission ∉ names ∧
        ∀ name ∈ names, vocabulary.knows name = true ∧ IsEntry name)) ∧
      ¬ ((∃ name ∈ names, '"' ∈ name.toList) ∧ ∃ name ∈ names, '\'' ∈ name.toList) := by
  rw [← hasBothQuotes_joined_iff, Bool.not_eq_true]
  exact ⟨fun h => ⟨h.collapsed, h.quotable⟩, fun h => ⟨h.1, h.2⟩⟩

/-- What a text without both quotes grants is readable. -/
theorem readable_of_grants {vocabulary : Vocabulary} {text : String} {names : List String}
    (h : Grants vocabulary text names) (hquotes : hasBothQuotes text.toList = false) :
    Readable vocabulary names := by
  refine ⟨collapsed_of_grants h, ?_⟩
  rcases h.collapsed with ⟨-, rfl⟩ | ⟨-, rfl⟩
  · decide
  · -- the entries have their quotes from the text, and the commas between them are none
    have hmem : ∀ quote ∈ (joined (entries text)).toList, quote ≠ ',' → quote ∈ text.toList := by
      intro quote hquote hcomma
      rcases mem_joined hquote with heq | ⟨name, hname, hquote⟩
      · exact absurd heq hcomma
      · exact (isEntry_of_mem_entries hname).2 hquote
    apply Bool.eq_false_iff.2
    intro hboth
    rcases hasBothQuotes_iff.1 hboth with ⟨hdouble, hsingle⟩
    have htext : hasBothQuotes text.toList = true :=
      hasBothQuotes_iff.2 ⟨hmem _ hdouble (by decide), hmem _ hsingle (by decide)⟩
    exact absurd htext (by simp [hquotes])

/-! ### The standard vocabulary -/

theorem isEntry_of_standard {name : String} (h : Vocabulary.standard.knows name = true) :
    IsEntry name ∧ '"' ∉ name.toList := by
  have hname : name = "none" ∨ name = "add" ∨ name = "edit" ∨ name = "delete" ∨ name = "read" := by
    rcases Vocabulary.knows_ofNames.1 h with hmem | rfl
    · simpa [nonePermission] using hmem
    · exact Or.inl rfl
  -- five names, each of which is looked at
  rcases hname with rfl | rfl | rfl | rfl | rfl <;>
    refine ⟨?_, by decide⟩ <;> constructor <;> simp <;> decide

/-- A list of standard names is readable as it stands. -/
theorem readable_standard {names : List String}
    (h : names = [nonePermission] ∨ (nonePermission ∉ names ∧
      ∀ name ∈ names, Vocabulary.standard.knows name = true)) :
    Readable Vocabulary.standard names := by
  refine readable_iff.2 ⟨?_, ?_⟩
  · rcases h with hnone | ⟨hnone, hknown⟩
    · exact Or.inl hnone
    · exact Or.inr ⟨hnone, fun name hname =>
        ⟨hknown name hname, (isEntry_of_standard (hknown name hname)).1⟩⟩
  · rintro ⟨⟨name, hname, hquote⟩, -⟩
    have hknown : Vocabulary.standard.knows name = true := by
      rcases h with rfl | ⟨-, hknown⟩
      · rw [List.mem_singleton.1 hname]
        exact knows_none _
      · exact hknown name hname
    exact (isEntry_of_standard hknown).2 hquote

end PermissionList

end StoreCommand
