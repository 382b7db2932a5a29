import StoreCommand.Proofs.Permission.Entries
import StoreCommand.Proofs.Statement.Expressible
import StoreCommand.Proofs.Value.Literal

/-!
# Different statements have different texts

The canonical text of a statement determines the statement, not only where it is read back.  Many
statements are not: the scanner knows no negative numbers, a vocabulary may not know a permission, a
list that names `none` collapses, and a key that spells a keyword in capitals comes back lowered.
So reading is of no use here, and the text is taken apart instead.

Every piece of a legible statement shows its own end (`delimited_pieces`), so the text determines
the pieces.  The pieces determine the statement (`eq_of_pieces_eq`): the words among them tell what
kind of statement it is, and quoted strings, values and lists of permissions differ wherever their
contents do.
-/

namespace StoreCommand

namespace Statement

/-- What a statement must have to be told from its text: key names, strings that can be quoted,
    permissions with a name of their own, and a number if it stores one. -/
structure Legible (statement : Statement) : Prop where
  key : ∀ key, statement.key? = some key → isKeyName key = true
  strings : ∀ text ∈ statement.strings, hasBothQuotes text.toList = false
  permissions : ∀ names, statement.permissions? = some names →
    ∀ name ∈ names, name ≠ "" ∧ ',' ∉ name.toList
  number : ∀ key, statement ≠ .put key (.float .nan)

end Statement

/-! ### Pieces that show their ends -/

/-- What the text of a statement is made of: words, the key, strings in quotes, and the value. -/
inductive Statement.IsPiece (statement : Statement) : String → Prop where
  | word {piece : String} (name : isKeyName piece = true) : statement.IsPiece piece
  | key {key : String} (isKey : statement.key? = some key) : statement.IsPiece key
  | string {text : String} (isString : text ∈ statement.strings) :
      statement.IsPiece (quoted text)
  | value {key : String} {value : Value} (stores : statement = .put key value) :
      statement.IsPiece value.literal

theorem isPiece_of_mem_changePieces {username : String} {change : UserChange} {piece : String}
    (h : piece ∈ change.pieces) : (Statement.updateUser username change).IsPiece piece := by
  cases change with
  | password new =>
    rcases by simpa [UserChange.pieces] using h with rfl | rfl
    · exact .word (by decide)
    · exact .string (by simp [Statement.strings, UserChange.strings])
  | username new =>
    rcases by simpa [UserChange.pieces] using h with rfl | rfl
    · exact .word (by decide)
    · exact .string (by simp [Statement.strings, UserChange.strings])
  | permissions names =>
    obtain rfl := List.mem_singleton.1 h
    exact .string (by simp [Statement.strings, UserChange.strings])
  | active flag =>
    cases flag with
    | true =>
      obtain rfl := List.mem_singleton.1 h
      exact .word (by decide)
    | false =>
      obtain rfl := List.mem_singleton.1 h
      exact .word (by decide)

theorem isPiece_of_mem_pieces {statement : Statement} {piece : String}
    (h : piece ∈ statement.pieces) : statement.IsPiece piece := by
  cases statement with
  | put key value =>
    rcases by simpa [Statement.pieces] using h with rfl | rfl | rfl | rfl
    · exact .word (by decide)
    · exact .value rfl
    · exact .word (by decide)
    · exact .key rfl
  | get key =>
    rcases by simpa [Statement.pieces] using h with rfl | rfl
    · exact .word (by decide)
    · exact .key rfl
  | delete key =>
    rcases by simpa [Statement.pieces] using h with rfl | rfl
    · exact .word (by decide)
    · exact .key rfl
  | registerUser username password permissions active =>
    rcases List.mem_append.1 h with h | h
    · rcases by simpa using h with rfl | rfl | rfl | rfl | rfl | rfl | rfl | rfl
      · exact .word (by decide)
      · exact .word (by decide)
      · exact .string (by simp [Statement.strings])
      · exact .string (by simp [Statement.strings])
      · exact .word (by decide)
      · exact .string (by simp [Statement.strings])
      · exact .word (by decide)
      · exact .word (by decide)
    · -- a new user that is active goes without the word `not`
      have hwords : piece ∈ ["not", "active"] := by
        cases active with
        | true => exact List.mem_cons_of_mem "not" h
        | false => exact h
      rcases by simpa using hwords with rfl | rfl
      · exact .word (by decide)
      · exact .word (by decide)
  | updateUser username change =>
    rcases List.mem_append.1 h with h | h
    · rcases by simpa using h with rfl | rfl | rfl | rfl | rfl
      · exact .word (by decide)
      · exact .word (by decide)
      · exact .string (by simp [Statement.strings])
      · exact .word (by decide)
      · exact .word (isKeyName_field change)
    · exact isPiece_of_mem_changePieces h
  | getUser username =>
    rcases by simpa [Statement.pieces] using h with rfl | rfl | rfl
    · exact .word (by decide)
    · exact .word (by decide)
    · exact .string (by simp [Statement.strings])
  | deleteUser username =>
    rcases by simpa [Statement.pieces] using h with rfl | rfl | rfl
    · exact .word (by decide)
    · exact .word (by decide)
    · exact .string (by simp [Statement.strings])
  | listUsers =>
    rcases by simpa [Statement.pieces] using h with rfl | rfl
    · exact .word (by decide)
    · exact .word (by decide)

theorem delimited_key {key : String} (h : isKeyName key = true) : Delimited key.toList :=
  delimited_word (isWordChar_of_isKeyName h).1 (isWordChar_of_isKeyName h).2

/-- A legible statement has only pieces that show their ends. -/
theorem delimited_pieces {statement : Statement} (h : statement.Legible) :
    ∀ piece ∈ statement.pieces, Delimited piece.toList := by
  intro piece hpiece
  cases isPiece_of_mem_pieces hpiece with
  | word name => exact delimited_key name
  | key isKey => exact delimited_key (h.key piece isKey)
  | string isString => exact delimited_quoted (h.strings _ isString)
  | @value key value stores =>
    refine Value.delimited_literal fun text htext => h.strings text ?_
    rw [stores, htext]
    exact List.mem_singleton_self text

/-! ### Pieces that differ -/

theorem UserChange.eq_of_pieces_eq {change other : UserChange}
    (hpermissions : ∀ names, change = .permissions names →
      ∀ name ∈ names, name ≠ "" ∧ ',' ∉ name.toList)
    (hother : ∀ names, other = .permissions names →
      ∀ name ∈ names, name ≠ "" ∧ ',' ∉ name.toList)
    (hfield : change.field = other.field) (h : change.pieces = other.pieces) : change = other := by
  cases change with
  | password new =>
    cases other with
    | password more =>
      have hnew : quoted new = quoted more := by simpa [pieces] using h
      exact congrArg password (quoted_injective hnew)
    | _ => exact absurd hfield (by simp [field])
  | username new =>
    cases other with
    | username more =>
      have hnew : quoted new = quoted more := by simpa [pieces] using h
      exact congrArg username (quoted_injective hnew)
    | _ => exact absurd hfield (by simp [field])
  | permissions names =>
    cases other with
    | permissions others =>
      -- without commas in its entries, a list is read off its text
      have hjoined : quoted (PermissionList.joined names) =
          quoted (PermissionList.joined others) := by
        simpa [pieces] using h
      exact congrArg permissions (PermissionList.joined_inj (hpermissions names rfl)
        (hother others rfl) (quoted_injective hjoined))
    | _ => exact absurd hfield (by simp [field])
  | active flag =>
    cases other with
    | active others => cases flag <;> cases others <;> simp [pieces] at h ⊢
    | _ => exact absurd hfield (by simp [field])

/-- The pieces of a statement determine the statement. -/
theorem eq_of_pieces_eq {statement other : Statement} (hstatement : statement.Legible)
    (hother : other.Legible) (h : statement.pieces = other.pieces) : statement = other := by
  -- statements of two kinds differ in one of the first two words or in the number of pieces
  cases statement with
  | put key value =>
    cases other with
    | put otherKey otherValue =>
      -- every value but not-a-number has a literal of its own
      simp only [Statement.pieces, List.cons.injEq, and_true, true_and] at h
      obtain ⟨hvalue, rfl⟩ := h
      have hnan : ∀ {stored : Value}, (Statement.put key stored).Legible →
          stored ≠ .float .nan := by
        rintro stored hstored rfl
        exact hstored.number key rfl
      rw [Value.literal_inj (hnan hstatement) (hnan hother) hvalue]
    | _ => exact absurd h (by simp [Statement.pieces])
  | get key =>
    cases other with
    | get otherKey =>
      -- a key is its own piece
      have hkey : key = otherKey := by simpa [Statement.pieces] using h
      rw [hkey]
    | _ => exact absurd h (by simp [Statement.pieces])
  | delete key =>
    cases other with
    | delete otherKey =>
      have hkey : key = otherKey := by simpa [Statement.pieces] using h
      rw [hkey]
    | _ => exact absurd h (by simp [Statement.pieces])
  | registerUser username password permissions active =>
    cases other with
    | registerUser otherName otherPassword otherPermissions otherActive =>
      -- three strings in a row, and one word more or less at the end
      simp only [Statement.pieces, List.cons_append, List.nil_append, List.cons.injEq,
        true_and] at h
      obtain ⟨hname, hpassword, hjoined, hactive⟩ := h
      have hpermissions := PermissionList.joined_inj (hstatement.permissions _ rfl)
        (hother.permissions _ rfl) (quoted_injective hjoined)
      have hflag : active = otherActive := by
        cases active <;> cases otherActive <;> simp at hactive ⊢
      rw [quoted_injective hname, quoted_injective hpassword, hpermissions, hflag]
    | _ => exact absurd h (by simp [Statement.pieces])
  | updateUser username change =>
    cases other with
    | updateUser otherName otherChange =>
      -- the field is a piece, so both changes have the same one
      simp only [Statement.pieces, List.cons_append, List.nil_append, List.cons.injEq,
        true_and] at h
      obtain ⟨hname, hfield, hpieces⟩ := h
      have hchange : change = otherChange := by
        refine UserChange.eq_of_pieces_eq ?_ ?_ hfield hpieces
        · rintro names rfl
          exact hstatement.permissions names rfl
        · rintro names rfl
          exact hother.permissions names rfl
      rw [quoted_injective hname, hchange]
    | _ => exact absurd h (by simp [Statement.pieces])
  | getUser username =>
    cases other with
    | getUser otherName =>
      -- the quotes around a name show which one was used, so the name can be read off
      have hname : quoted username = quoted otherName := by simpa [Statement.pieces] using h
      rw [quoted_injective hname]
    | _ => exact absurd h (by simp [Statement.pieces])
  | deleteUser username =>
    cases other with
    | deleteUser otherName =>
      have hname : quoted username = quoted otherName := by simpa [Statement.pieces] using h
      rw [quoted_injective hname]
    | _ => exact absurd h (by simp [Statement.pieces])
  | listUsers =>
    cases other with
    | listUsers => rfl
    | _ => exact absurd h (by simp [Statement.pieces])

/-- Two legible statements have the same canonical text only if they are the same. -/
theorem canonical_eq_iff {statement other : Statement} (hstatement : statement.Legible)
    (hother : other.Legible) : statement.canonical = other.canonical ↔ statement = other := by
  refine ⟨fun h => eq_of_pieces_eq hstatement hother ?_, fun h => by rw [h]⟩
  exact eq_of_intercalate_eq (delimited_pieces hstatement) (delimited_pieces hother) h

/-- Negative infinity and negative zero under a key that spells a keyword, and two lists that name
    `none` and permissions of no vocabulary, are told apart.  None of the four texts is read
    back. -/
theorem canonical_ne_of_unreadable :
    ((Statement.put "PUT" (.float (.number true .infinite))).Legible ∧
      (Statement.put "PUT" (.float (.number true .zero))).Legible ∧
      (Statement.put "PUT" (.float (.number true .infinite))).canonical ≠
        (Statement.put "PUT" (.float (.number true .zero))).canonical) ∧
    ((Statement.registerUser "a\"b" "" ["none", "x y"] true).Legible ∧
      (Statement.registerUser "a\"b" "" ["none", "x", "y"] true).Legible ∧
      (Statement.registerUser "a\"b" "" ["none", "x y"] true).canonical ≠
        (Statement.registerUser "a\"b" "" ["none", "x", "y"] true).canonical) := by
  have hput : ∀ m, (Statement.put "PUT" (.float (.number true m))).Legible := by
    intro m
    refine ⟨?_, by simp [Statement.strings], by simp [Statement.permissions?], by simp⟩
    intro key hkey
    obtain rfl := Option.some.inj hkey
    decide
  have hregister : ∀ names : List String,
      (∀ name ∈ names, name ≠ "" ∧ ',' ∉ name.toList) →
      hasBothQuotes (PermissionList.joined names).toList = false →
      (Statement.registerUser "a\"b" "" names true).Legible := by
    intro names hnames hquotes
    refine ⟨by simp [Statement.key?], ?_, ?_, by simp⟩
    · simp only [Statement.strings, List.forall_mem_cons, hquotes]
      decide
    · intro others hothers
      obtain rfl := Option.some.inj hothers
      exact hnames
  have hblank := hregister ["none", "x y"] (by simp) (by decide)
  have hcomma := hregister ["none", "x", "y"] (by simp) (by decide)
  refine ⟨⟨hput _, hput _, fun h => ?_⟩, hblank, hcomma, fun h => ?_⟩
  · exact absurd ((canonical_eq_iff (hput _) (hput _)).1 h) (by decide)
  · exact absurd ((canonical_eq_iff hblank hcomma).1 h) (by decide)

end StoreCommand
