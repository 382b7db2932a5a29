import StoreCommand.Statement.Record

/-!
# Records read back

A record is an object: its fields have different names, and their order does not count.  So two
records are compared by looking up names (`Record.SameObject`), and a record is read back in the
same way: the field `type` tells the kind of the statement, and the kind tells which fields hold its
parts (`Record.statement?`).

The field `type` holds the title of the statement in small letters, and `field` that of the change.
Both are what the statement and the change call themselves, which another definition spells out
(`Statement.tag_eq_kind`, `UserChange.tag_eq_field`): reading goes by these names, so a title that
drifted from its name would be read as nothing.

Only a number that is not finite leaves nothing behind: the record tells that such a number is put,
and not which one.  Reading takes it for not-a-number, so what comes back is the statement with this
number in place of every other one that is not finite (`statement?_record`).  Hence the record
determines everything else (`sameObject_record_iff`).
-/

namespace StoreCommand

/-! ### Titles and names -/

/-- Every sort of statement is named in the command as it is in the record. -/
theorem Statement.tag_eq_kind (statement : Statement) : statement.tag = statement.kind := by
  cases statement <;> simp [tag, kind, title, snakeCase]

theorem UserChange.tag_eq_field (change : UserChange) : change.tag = change.field := by
  cases change <;> simp [tag, field, title, lowered]

theorem Statement.record_eq (statement : Statement) :
    statement.record = ("type", .text statement.kind) :: statement.fields := by
  rw [record, tag_eq_kind]

theorem Statement.fields_updateUser (username : String) (change : UserChange) :
    (updateUser username change).fields =
      [("username", .text username), ("field", .text change.field), ("value", change.datum)] := by
  rw [fields, change.tag_eq_field]

/-! ### Reading a record -/

/-- The value with this description; the empty datum is taken for not-a-number. -/
def Datum.value? : Datum → Option Value
  | empty => some (.float .nan)
  | text content => some (.string content)
  | texts _ => none
  | truth flag => some (.bool flag)
  | int number => some (.int number)
  | real number => some (.float number)

def UserChange.ofField? : String → Datum → Option UserChange
  | "password", .text new => some (.password new)
  | "username", .text new => some (.username new)
  | "permissions", .texts names => some (.permissions names)
  | "active", .truth flag => some (.active flag)
  | _, _ => none

namespace Record

/-- Both records give every name the same content, or none of them gives it any. -/
def SameObject (record other : Record) : Prop :=
  ∀ name, record.lookup name = other.lookup name

def text? (record : Record) (name : String) : Option String :=
  match record.lookup name with
  | some (.text text) => some text
  | _ => none

def texts? (record : Record) (name : String) : Option (List String) :=
  match record.lookup name with
  | some (.texts texts) => some texts
  | _ => none

def truth? (record : Record) (name : String) : Option Bool :=
  match record.lookup name with
  | some (.truth flag) => some flag
  | _ => none

/-- The statement that a record describes. -/
def statement? (record : Record) : Option Statement := do
  match ← record.text? "type" with
  | "put" => return .put (← record.text? "key") (← (← record.lookup "value").value?)
  | "get" => return .get (← record.text? "key")
  | "delete" => return .delete (← record.text? "key")
  | "register_user" =>
    return .registerUser (← record.text? "username") (← record.text? "password")
      (← record.texts? "permissions") (← record.truth? "isActive")
  | "update_user" =>
    return .updateUser (← record.text? "username")
      (← UserChange.ofField? (← record.text? "field") (← record.lookup "value"))
  | "get_user" => return .getUser (← record.text? "username")
  | "delete_user" => return .deleteUser (← record.text? "username")
  | "list_users" => return .listUsers
  | _ => none

/-- Reading only looks up names, so it does not see the order of fields. -/
theorem SameObject.statement?_eq {record other : Record} (h : record.SameObject other) :
    record.statement? = other.statement? := by
  simp only [statement?, text?, texts?, truth?, h _]

end Record

/-! ### Numbers that are not finite -/

/-- The value is a number without a description: infinity, with either sign, or not-a-number. -/
def Value.Unbounded (value : Value) : Prop :=
  ∃ x, value = .float x ∧ x.isFinite = false

/-- The value that comes back from the description of a value. -/
def Value.recorded : Value → Value
  | float x => if x.isFinite then float x else float .nan
  | value => value

def Statement.recorded : Statement → Statement
  | put key value => put key value.recorded
  | statement => statement

theorem Value.recorded_of_unbounded {value : Value} (h : value.Unbounded) :
    value.recorded = float .nan := by
  rcases h with ⟨x, rfl, hx⟩
  rw [recorded, if_neg (by simp [hx])]

theorem Value.recorded_of_not_unbounded {value : Value} (h : ¬ value.Unbounded) :
    value.recorded = value := by
  cases value with
  | float x =>
    have hfinite : x.isFinite = true := by
      cases hx : x.isFinite with
      | true => rfl
      | false => exact absurd ⟨x, rfl, hx⟩ h
    rw [recorded, if_pos hfinite]
  | string | int | bool => rfl

theorem Value.recorded_eq_iff {value other : Value} :
    value.recorded = other.recorded ↔ value = other ∨ (value.Unbounded ∧ other.Unbounded) := by
  have hnan : (float .nan).Unbounded := ⟨.nan, rfl, rfl⟩
  constructor
  · intro h
    by_cases hvalue : value.Unbounded
    · by_cases hother : other.Unbounded
      · exact Or.inr ⟨hvalue, hother⟩
      · rw [recorded_of_unbounded hvalue, recorded_of_not_unbounded hother] at h
        exact absurd (h ▸ hnan) hother
    · by_cases hother : other.Unbounded
      · rw [recorded_of_not_unbounded hvalue, recorded_of_unbounded hother] at h
        exact absurd (h ▸ hnan) hvalue
      · rw [recorded_of_not_unbounded hvalue, recorded_of_not_unbounded hother] at h
        exact Or.inl h
  · rintro (rfl | ⟨hvalue, hother⟩)
    · rfl
    · rw [recorded_of_unbounded hvalue, recorded_of_unbounded hother]

theorem Statement.recorded_eq_iff {statement other : Statement} :
    statement.recorded = other.recorded ↔
      statement = other ∨ ∃ key x y, statement = .put key (.float x) ∧
        other = .put key (.float y) ∧ x.isFinite = false ∧ y.isFinite = false := by
  constructor
  · intro h
    cases statement with
    | put key value =>
      cases other with
      | put otherKey otherValue =>
        obtain ⟨rfl, hvalue⟩ := put.inj h
        rcases Value.recorded_eq_iff.1 hvalue with rfl | ⟨⟨x, rfl, hx⟩, y, rfl, hy⟩
        · exact Or.inl rfl
        · exact Or.inr ⟨key, x, y, rfl, rfl, hx, hy⟩
      | _ => exact absurd h (by simp [recorded])
    | _ =>
      cases other with
      | put => exact absurd h (by simp [recorded])
      | _ => exact Or.inl h
  · rintro (rfl | ⟨key, x, y, rfl, rfl, hx, hy⟩)
    · rfl
    · exact congrArg (put key) (Value.recorded_eq_iff.2 (Or.inr ⟨⟨x, rfl, hx⟩, y, rfl, hy⟩))

/-! ### What comes back -/

theorem Value.value?_datum (value : Value) : value.datum.value? = some value.recorded := by
  cases value with
  | float x =>
    cases hfinite : x.isFinite with
    | true => simp [datum, Datum.value?, recorded, hfinite]
    | false => simp [datum, Datum.value?, recorded, hfinite]
  | string | int | bool => rfl

theorem Value.datum_of_unbounded {value : Value} (h : value.Unbounded) : value.datum = .empty := by
  rcases h with ⟨x, rfl, hx⟩
  rw [datum, if_neg (by simp [hx])]

theorem Value.datum_recorded (value : Value) : value.recorded.datum = value.datum := by
  by_cases hvalue : value.Unbounded
  · rw [recorded_of_unbounded hvalue, datum_of_unbounded hvalue,
      datum_of_unbounded ⟨.nan, rfl, rfl⟩]
  · rw [recorded_of_not_unbounded hvalue]

theorem UserChange.ofField?_datum (change : UserChange) :
    ofField? change.field change.datum = some change := by
  cases change <;> rfl

/-- A statement is read back from its record, up to numbers that are not finite. -/
theorem statement?_record (statement : Statement) :
    statement.record.statement? = some statement.recorded := by
  rw [statement.record_eq]
  cases statement with
  | put key value =>
    -- the only part whose description can be empty
    have hread : Record.statement? (("type", .text "put") :: (Statement.put key value).fields) =
        value.datum.value?.bind fun found => some (.put key found) := rfl
    rw [Statement.kind, hread, value.value?_datum]
    rfl
  | updateUser username change =>
    -- the name of the change tells how its content is to be read
    rw [Statement.fields_updateUser]
    have hread : Record.statement? [("type", .text "update_user"), ("username", .text username),
          ("field", .text change.field), ("value", change.datum)] =
        (UserChange.ofField? change.field change.datum).bind fun found =>
          some (.updateUser username found) := rfl
    rw [Statement.kind, hread, change.ofField?_datum]
    rfl
  | _ => rfl

theorem record_recorded (statement : Statement) :
    statement.recorded.record = statement.record := by
  cases statement with
  | put key value =>
    simp only [Statement.recorded, Statement.record_eq, Statement.fields, Statement.kind,
      value.datum_recorded]
  | _ => rfl

theorem recorded_eq_of_sameObject {statement other : Statement}
    (h : statement.record.SameObject other.record) : statement.recorded = other.recorded := by
  have hread := h.statement?_eq
  rw [statement?_record, statement?_record] at hread
  exact Option.some.inj hread

theorem record_eq_of_recorded_eq {statement other : Statement}
    (h : statement.recorded = other.recorded) : statement.record = other.record := by
  rw [← record_recorded statement, h, record_recorded]

/-! ### Objects -/

theorem nodup_names (statement : Statement) : (statement.record.map Prod.fst).Nodup := by
  cases statement <;> simp [Statement.record, Statement.fields]

theorem lookup_type (statement : Statement) :
    statement.record.lookup "type" = some (.text statement.kind) := by
  rw [statement.record_eq]
  exact List.lookup_cons_self

theorem lookup_field (username : String) (change : UserChange) :
    (Statement.updateUser username change).record.lookup "field" = some (.text change.field) := by
  rw [Statement.record_eq, Statement.fields_updateUser]
  rfl

/-- A record is an object that tells the kind of its statement and, if a user is changed, the
    changed field.  The same object describes two statements only if they are the same or put
    numbers that are not finite under one key, and then their fields have the same order too. -/
theorem sameObject_record_iff :
    (∀ statement : Statement, (statement.record.map Prod.fst).Nodup ∧
      statement.record.lookup "type" = some (.text statement.kind)) ∧
    (∀ username change, (Statement.updateUser username change).record.lookup "field" =
      some (.text change.field)) ∧
    (∀ statement other : Statement, statement.record.SameObject other.record ↔
      statement = other ∨ ∃ key x y, statement = .put key (.float x) ∧
        other = .put key (.float y) ∧ x.isFinite = false ∧ y.isFinite = false) ∧
    (∀ statement other : Statement, statement.record = other.record ↔
      statement.record.SameObject other.record) := by
  refine ⟨fun statement => ⟨nodup_names statement, lookup_type statement⟩, lookup_field, ?_, ?_⟩
  · intro statement other
    rw [← Statement.recorded_eq_iff]
    refine ⟨recorded_eq_of_sameObject, fun h name => ?_⟩
    rw [record_eq_of_recorded_eq h]
  · intro statement other
    refine ⟨fun h name => ?_, fun h => record_eq_of_recorded_eq (recorded_eq_of_sameObject h)⟩
    rw [h]

end StoreCommand
