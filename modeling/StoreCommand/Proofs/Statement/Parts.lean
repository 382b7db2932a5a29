import StoreCommand.Statement.Grammar

/-!
# What holds of all parts of the grammar

Many properties of a reading are shown by going down its tree, and the readings of the grammar are
all built in the same few ways: a result, a refusal, a place that takes any text, and one reading
behind another.  A property that these four keep (`Kept`) holds of every part of the grammar.

Two places need a word of their own, because not every property is kept there.  A permission list is
left open wherever a part contains one; and the value that is put depends on more of its token than
the text, so `putValue` is only what comes behind it.
-/

namespace StoreCommand

namespace Reading

/-- A property of readings that results and texts have, and refusals unless they are about a
    permission, and that one reading behind another keeps. -/
structure Kept (property : (α : Type) → Reading α → Prop) : Prop where
  done {α : Type} (result : α) : property α (.done result)
  refused {α : Type} {cause : ParseError.Cause}
    (other : ∀ name, cause ≠ .unknownPermission name) : property α (.refused cause)
  text (slot : ParseError.Slot) : property String (text slot)
  bind {α β : Type} {reading : Reading α} {continuation : α → Reading β}
    (first : property α reading) (later : ∀ result, property β (continuation result)) :
    property β (reading >>= continuation)

namespace Kept

variable {property : (α : Type) → Reading α → Prop}

/-! ### Parts of statements -/

theorem word (h : Kept property) (expected : String) : property Unit (word expected) := by
  refine h.bind (h.text _) fun found => ?_
  split
  · exact h.done ()
  · exact h.refused (by simp)

theorem connective (h : Kept property) (strict : Bool) (expected : String) :
    property Unit (connective strict expected) := by
  cases strict with
  | true => exact h.word expected
  | false => exact h.bind (h.text _) fun _ => h.done ()

theorem keyNamed (h : Kept property) (found : String) : property String (keyNamed found) := by
  unfold Reading.keyNamed
  split
  · exact h.done found
  · exact h.refused (by simp)

theorem key (h : Kept property) : property String key :=
  h.bind (h.text .key) h.keyNamed

theorem truthValue (h : Kept property) : property Bool truthValue := by
  refine h.bind (h.text .truthValue) fun found => ?_
  split
  · exact h.done true
  split
  · exact h.done false
  · exact h.refused (by simp)

theorem activeFlag (h : Kept property) (strict : Bool) : property Bool (activeFlag strict) := by
  cases strict with
  | false => exact h.bind (h.text .activeState) fun found => h.done _
  | true =>
    refine h.bind (h.text _) fun found => ?_
    split
    · exact h.bind (h.word "active") fun _ => h.done false
    split
    · exact h.done true
    · exact h.refused (by simp)

/-! ### Statements -/

theorem change (h : Kept property) {vocabulary : Vocabulary} {field : String}
    (hlist : field = "permissions" → property (List String) (permissions vocabulary)) :
    property UserChange (change vocabulary field) := by
  have hnew : ∀ (slot : ParseError.Slot) (ofText : String → UserChange), property UserChange
      (Reading.word "to" >>= fun _ => Reading.text slot >>= fun new => .done (ofText new)) := by
    intro slot ofText
    refine h.bind (h.word "to") fun _ => ?_
    exact h.bind (h.text slot) fun new => h.done (ofText new)
  -- the fields in their order; a list of permissions is the one part left to the caller
  unfold Reading.change
  split
  · exact hnew .newPassword .password
  split
  · exact hnew .newUsername .username
  split
  · rename_i hfield
    exact h.bind (hlist hfield) fun names => h.done _
  split
  · exact h.bind h.truthValue fun flag => h.done _
  · exact h.refused (by simp)

theorem keyOrUser (h : Kept property) (ofKey ofUser : String → Statement) :
    property Statement (keyOrUser ofKey ofUser) := by
  refine h.bind (h.text .key) fun found => ?_
  split
  · exact h.bind (h.text .username) fun user => h.done (ofUser user)
  · exact h.bind (h.keyNamed found) fun key => h.done (ofKey key)

theorem listUsers (h : Kept property) : property Statement listUsers :=
  h.bind (h.word "users") fun _ => h.done Statement.listUsers

theorem updateUser (h : Kept property) {vocabulary : Vocabulary}
    (hlist : property (List String) (permissions vocabulary)) :
    property Statement (updateUser vocabulary) := by
  refine h.bind (h.word "user") fun _ => h.bind (h.text .username) fun username => ?_
  refine h.bind (h.word "set") fun _ => h.bind (h.text .field) fun field => ?_
  exact h.bind (h.change fun _ => hlist) fun change => h.done _

/-- What follows the permission list of a registration. -/
theorem registered (h : Kept property) (strict : Bool) (ofFlag : Bool → Statement) :
    property Statement (Reading.connective strict "and" >>= fun _ =>
      Reading.connective strict "is" >>= fun _ =>
        Reading.activeFlag strict >>= fun active => .done (ofFlag active)) := by
  refine h.bind (h.connective strict "and") fun _ => h.bind (h.connective strict "is") fun _ => ?_
  exact h.bind (h.activeFlag strict) fun active => h.done (ofFlag active)

theorem registerUser (h : Kept property) {options : Options}
    (hlist : property (List String) (permissions options.vocabulary)) :
    property Statement (registerUser options) := by
  refine h.bind (h.connective options.strict "user") fun _ => ?_
  refine h.bind (h.text .username) fun username => h.bind (h.text .password) fun password => ?_
  refine h.bind (h.connective options.strict "with") fun _ => h.bind hlist fun names => ?_
  exact h.registered options.strict (.registerUser username password names)

end Kept

/-! ### Values -/

/-- What comes behind the value that is put. -/
def putValue (value : Value) : Reading Statement := do
  word "in"
  return .put (← key) value

theorem put_eq : put = next (.missing .value) fun token => putValue (Value.ofToken token) := rfl

theorem Kept.putValue {property : (α : Type) → Reading α → Prop} (h : Kept property)
    (value : Value) : property Statement (putValue value) :=
  h.bind (h.word "in") fun _ => h.bind h.key fun _ => h.done _

end Reading

end StoreCommand
