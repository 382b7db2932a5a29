import Mathlib.Data.List.Sort
import StoreCommand.Proofs.Permission.Entries
import StoreCommand.Proofs.Statement.Parts
import StoreCommand.Proofs.Statement.Sentence

/-!
# Larger vocabularies

A vocabulary is asked at one place only, where a list of permissions is read.  With a larger
vocabulary everything that was read before is read as before, and so is every error that is not
about a permission.  An entry that was not known may become known; then the next one that is not is
reported, or reading goes on behind the list.

`Widens` compares the runs of two readings, one for each vocabulary.  Both are put together from the
same parts, and the list, if there is one, stands at a fixed place: it is the token with index 5 of
a registration and of an update.
-/

namespace StoreCommand

namespace Vocabulary

/-- Two vocabularies that know the same names are the same. -/
theorem eq_of_knows {first second : Vocabulary}
    (h : ∀ name, first.knows name = true ↔ second.knows name = true) : first = second := by
  have hnames : first.names = second.names := by
    apply first.increasing.eq_of_mem_iff second.increasing
    simpa [knows] using h
  cases first
  cases second
  cases hnames
  rfl

theorem ofNames_eq_of_forall {names others : List String}
    (h : ∀ name, name ∈ names ∨ name = nonePermission ↔ name ∈ others ∨ name = nonePermission) :
    ofNames names = ofNames others := by
  apply eq_of_knows
  intro name
  rw [knows_ofNames, knows_ofNames]
  exact h name

theorem knows_of_forall {names others : List String}
    (h : ∀ name ∈ names, name ∈ others ∨ name = nonePermission) (name : String)
    (hname : (ofNames names).knows name = true) : (ofNames others).knows name = true := by
  rcases knows_ofNames.1 hname with hmem | hnone
  · exact knows_ofNames.2 (h name hmem)
  · exact knows_ofNames.2 (Or.inr hnone)

end Vocabulary

/-! ### Unknown entries -/

namespace PermissionList

/-- `name` is the first entry that is neither one of `names` nor `none`. -/
structure FirstUnknown (names entries : List String) (name : String) : Prop where
  notMem : name ∉ names
  ne_none : name ≠ nonePermission
  first : ∃ front back, entries = front ++ name :: back ∧
    ∀ other ∈ front, other ∈ names ∨ other = nonePermission

theorem FirstUnknown.mem {names entries : List String} {name : String}
    (h : FirstUnknown names entries name) : name ∈ entries := by
  rcases h.first with ⟨front, back, rfl, -⟩
  simp

/-- `other` is an entry behind the place at which `name` occurs first. -/
def FollowsFirst (entries : List String) (name other : String) : Prop :=
  ∃ front back, entries = front ++ name :: back ∧ name ∉ front ∧ other ∈ back

theorem read_ofNames_eq_error_iff {names : List String} {text name : String} :
    read (.ofNames names) text = .error name ↔ FirstUnknown names (entries text) name := by
  have hunknown : ∀ other, (!(Vocabulary.ofNames names).knows other) = true ↔
      other ∉ names ∧ other ≠ nonePermission := by
    intro other
    rw [Bool.not_eq_true', Bool.eq_false_iff, ne_eq, Vocabulary.knows_ofNames, not_or]
  rw [read_eq_error_iff, List.find?_eq_some_iff_append, hunknown]
  simp only [Bool.not_not, Vocabulary.knows_ofNames]
  constructor
  · rintro ⟨⟨hnot, hne⟩, hfirst⟩
    exact ⟨hnot, hne, hfirst⟩
  · rintro ⟨hnot, hne, hfirst⟩
    exact ⟨⟨hnot, hne⟩, hfirst⟩

/-- With more names the first unknown entry stays the same or comes later. -/
theorem FirstUnknown.eq_or_followsFirst {names more entries : List String} {name other : String}
    (h : FirstUnknown names entries name) (hother : FirstUnknown more entries other)
    (hmore : ∀ name ∈ names, name ∈ more ∨ name = nonePermission) :
    other = name ∨ FollowsFirst entries name other := by
  rcases h.first with ⟨front, back, rfl, hfront⟩
  -- what stands in front of `name` is known with fewer names, and so with more
  have hnotMem : name ∉ front := by
    intro hmem
    rcases hfront name hmem with hknown | hnone
    · exact h.notMem hknown
    · exact h.ne_none hnone
  have hotherNotMem : other ∉ front := by
    intro hmem
    rcases hfront other hmem with hknown | hnone
    · exact (hmore other hknown).elim hother.notMem hother.ne_none
    · exact hother.ne_none hnone
  rcases List.mem_append.1 hother.mem with hfrontMem | htail
  · exact absurd hfrontMem hotherNotMem
  · rcases List.mem_cons.1 htail with hsame | hback
    · exact Or.inl hsame
    · exact Or.inr ⟨front, back, rfl, hnotMem, hback⟩

/-- What is read with a vocabulary is read with a larger one. -/
theorem read_of_knows {narrow wide : Vocabulary} {text : String} {names : List String}
    (hwide : ∀ name, narrow.knows name = true → wide.knows name = true)
    (h : read narrow text = .ok names) : read wide text = .ok names := by
  have hgrants := read_eq_ok_iff.1 h
  exact read_eq_ok_iff.2 ⟨fun name hname => hwide name (hgrants.known name hname),
    hgrants.collapsed⟩

end PermissionList

namespace Reading

variable {α : Type}

/-! ### Readings without permissions -/

/-- The result is an error about a permission. -/
def RefusesPermission (result : Except ParseError α) : Prop :=
  ∃ name position, result = .error ⟨.unknownPermission name, position⟩

theorem not_refusesPermission_of_cause {cause : ParseError.Cause} {position : Option Nat}
    (h : ∀ name, cause ≠ .unknownPermission name) :
    ¬ RefusesPermission (.error ⟨cause, position⟩ : Except ParseError α) := by
  rintro ⟨name, place, herror⟩
  exact h name (ParseError.mk.inj (Except.error.inj herror)).1

/-- No refusal of the reading is about a permission. -/
inductive Unpermitting : Reading α → Prop where
  | done (result : α) : Unpermitting (.done result)
  | refused {cause : ParseError.Cause} (other : ∀ name, cause ≠ .unknownPermission name) :
      Unpermitting (.refused cause)
  | next {slot : ParseError.Slot} {step : Token → Reading α}
      (later : ∀ token, Unpermitting (step token)) : Unpermitting (.next (.missing slot) step)

theorem kept_unpermitting : Kept fun _ => Unpermitting where
  done := .done
  refused := .refused
  text _ := .next fun token => .done token.text
  bind := by
    intro α β reading continuation first later
    induction first with
    | done result => exact later result
    | refused other => exact .refused other
    | next _ ih => exact .next ih

theorem not_refusesPermission {reading : Reading α} (h : Unpermitting reading) (last : Option Nat)
    (tokens : List Token) : ¬ RefusesPermission (reading.runAfter last tokens) := by
  induction h generalizing last tokens with
  | done result => simp [RefusesPermission]
  | refused other =>
    rw [runAfter_refused]
    exact not_refusesPermission_of_cause other
  | @next slot step later ih =>
    cases tokens with
    | nil => exact not_refusesPermission_of_cause (by simp)
    | cons token rest => exact ih token (some token.position) rest

/-! ### Two runs on the same tokens -/

/-- `Widened narrow wide list? result other`: how two runs on the same tokens can end together, if
    they differ in the vocabulary alone and `list?` stands where permissions are read. -/
inductive Widened (narrow wide : Vocabulary) (list? : Option Token) :
    Except ParseError α → Except ParseError α → Prop where
  | same {result : Except ParseError α} (other : ¬ RefusesPermission result) :
      Widened narrow wide list? result result
  | refused {list : Token} {unknown later : String} (isList : list? = some list)
      (isUnknown : PermissionList.read narrow list.text = .error unknown)
      (isLater : PermissionList.read wide list.text = .error later) :
      Widened narrow wide list? (.error ⟨.unknownPermission unknown, some list.position⟩)
        (.error ⟨.unknownPermission later, some list.position⟩)
  | granted {list : Token} {unknown : String} {names : List String} {result : Except ParseError α}
      (isList : list? = some list)
      (isUnknown : PermissionList.read narrow list.text = .error unknown)
      (isGranted : PermissionList.read wide list.text = .ok names)
      (other : ¬ RefusesPermission result) :
      Widened narrow wide list? (.error ⟨.unknownPermission unknown, some list.position⟩) result

/-- What becomes of the error that `name` is not known in `list`, if there are `more` names: the
    first entry that is still unknown is reported in its place.  It is the same one, or one behind
    it, and if there is none the new result refuses no permission. -/
structure Reconsidered (names more : List String) (list : Token) (name : String)
    (result : Except ParseError α) : Prop where
  first : PermissionList.FirstUnknown names (PermissionList.entries list.text) name
  later : (∃ entry ∈ PermissionList.entries list.text, entry ∉ more ∧ entry ≠ nonePermission) →
    ∃ other, PermissionList.FirstUnknown more (PermissionList.entries list.text) other ∧
      result = .error ⟨.unknownPermission other, some list.position⟩ ∧
      (other = name ∨ PermissionList.FollowsFirst (PermissionList.entries list.text) name other)
  granted : (∀ entry ∈ PermissionList.entries list.text, entry ∈ more ∨ entry = nonePermission) →
    ¬ RefusesPermission result

section Outcomes

variable {list? : Option Token} {result other : Except ParseError α}

theorem eq_of_widened {narrow wide : Vocabulary} (h : Widened narrow wide list? result other)
    (hresult : ¬ RefusesPermission result) : other = result := by
  cases h with
  | same => rfl
  | refused => exact absurd ⟨_, _, rfl⟩ hresult
  | granted => exact absurd ⟨_, _, rfl⟩ hresult

theorem exists_reconsidered {names more : List String}
    (h : Widened (.ofNames names) (.ofNames more) list? result other)
    (hmore : ∀ name ∈ names, name ∈ more ∨ name = nonePermission) {name : String}
    {position : Option Nat} (hresult : result = .error ⟨.unknownPermission name, position⟩) :
    ∃ list, list? = some list ∧ position = some list.position ∧
      Reconsidered names more list name other := by
  cases h with
  | same hother => exact absurd ⟨name, position, hresult⟩ hother
  | @refused list unknown later isList isUnknown isLater =>
    obtain ⟨hcause, rfl⟩ := ParseError.mk.inj (Except.error.inj hresult)
    obtain rfl := ParseError.Cause.unknownPermission.inj hcause
    have hunknown := PermissionList.read_ofNames_eq_error_iff.1 isUnknown
    have hlater := PermissionList.read_ofNames_eq_error_iff.1 isLater
    refine ⟨list, isList, rfl, ⟨hunknown, fun _ => ?_, ?_⟩⟩
    · exact ⟨later, hlater, rfl, hunknown.eq_or_followsFirst hlater hmore⟩
    · -- a later one is still unknown, so not every entry is known now
      intro hknown
      exact ((hknown later hlater.mem).elim hlater.notMem hlater.ne_none).elim
  | @granted list unknown granted result isList isUnknown isGranted hother =>
    obtain ⟨hcause, rfl⟩ := ParseError.mk.inj (Except.error.inj hresult)
    obtain rfl := ParseError.Cause.unknownPermission.inj hcause
    have hunknown := PermissionList.read_ofNames_eq_error_iff.1 isUnknown
    have hknown := (PermissionList.read_eq_ok_iff.1 isGranted).known
    refine ⟨list, isList, rfl, ⟨hunknown, ?_, fun _ => hother⟩⟩
    -- the whole list is granted, so no entry of it is unknown now
    rintro ⟨entry, hentry, hnotMem, hne⟩
    exact ((Vocabulary.knows_ofNames.1 (hknown entry hentry)).elim hnotMem hne).elim

end Outcomes

/-- On all tokens the two readings end together in one of the ways of `Widened`, and it is the token
    with the index `count` that has the permissions. -/
def Widens (narrow wide : Vocabulary) (count : Nat) (reading other : Reading α) : Prop :=
  ∀ last tokens, Widened narrow wide tokens[count]? (reading.runAfter last tokens)
    (other.runAfter last tokens)

section Parts

variable {narrow wide : Vocabulary} {count : Nat}

theorem widens_of_unpermitting {reading : Reading α} (h : Unpermitting reading) :
    Widens narrow wide count reading reading :=
  fun last tokens => .same (not_refusesPermission h last tokens)

theorem widens_next {missing : ParseError.Cause} {step other : Token → Reading α}
    (hmissing : ∀ name, missing ≠ .unknownPermission name)
    (h : ∀ token, Widens narrow wide count (step token) (other token)) :
    Widens narrow wide (count + 1) (next missing step) (next missing other) := by
  intro last tokens
  cases tokens with
  | nil => exact .same (not_refusesPermission_of_cause hmissing)
  | cons token rest =>
    rw [List.getElem?_cons_succ]
    exact h token (some token.position) rest

theorem widens_text_bind {slot : ParseError.Slot} {reading other : String → Reading α}
    (h : ∀ found, Widens narrow wide count (reading found) (other found)) :
    Widens narrow wide (count + 1) (text slot >>= reading) (text slot >>= other) :=
  widens_next (by simp) fun token => h token.text

theorem widens_word_bind {expected : String} {reading other : Unit → Reading α}
    (h : Widens narrow wide count (reading ()) (other ())) :
    Widens narrow wide (count + 1) (word expected >>= reading) (word expected >>= other) := by
  have hword : ∀ continuation : Unit → Reading α, (word expected >>= continuation) =
      (text (.word expected) >>= fun found =>
        (if found = expected then done () else refused (.wrongWord expected found)) >>=
          continuation) :=
    fun continuation => bind_assoc _ _ _
  rw [hword, hword]
  refine widens_text_bind fun found => ?_
  split
  · exact h
  · exact widens_of_unpermitting (.refused (by simp))

theorem widens_connective_bind {strict : Bool} {expected : String}
    {reading other : Unit → Reading α} (h : Widens narrow wide count (reading ()) (other ())) :
    Widens narrow wide (count + 1) (connective strict expected >>= reading)
      (connective strict expected >>= other) := by
  cases strict with
  | true => exact widens_word_bind h
  | false => exact widens_text_bind fun _ => h

theorem widens_permissions_bind
    (hwide : ∀ name, narrow.knows name = true → wide.knows name = true)
    {continuation : List String → Reading α}
    (h : ∀ names, Unpermitting (continuation names)) :
    Widens narrow wide 0 (permissions narrow >>= continuation)
      (permissions wide >>= continuation) := by
  intro last tokens
  cases tokens with
  | nil =>
    have hnil : ∀ vocabulary, (permissions vocabulary >>= continuation).runAfter last [] =
        .error ⟨.missing .permissions, none⟩ := fun _ => rfl
    rw [hnil, hnil]
    exact .same (not_refusesPermission_of_cause (by simp))
  | cons token rest =>
    rw [runAfter_permissions_bind, runAfter_permissions_bind, List.getElem?_cons_zero]
    cases hnarrow : PermissionList.read narrow token.text with
    | ok names =>
      rw [PermissionList.read_of_knows hwide hnarrow]
      exact .same (not_refusesPermission (h names) _ rest)
    | error unknown =>
      -- known now, or refused at the same token
      cases hread : PermissionList.read wide token.text with
      | ok names => exact .granted rfl hnarrow hread (not_refusesPermission (h names) _ rest)
      | error later => exact .refused rfl hnarrow hread

/-! ### Statements -/

theorem widens_change (hwide : ∀ name, narrow.knows name = true → wide.knows name = true)
    (field : String) (ofChange : UserChange → Statement) :
    Widens narrow wide 0 (change narrow field >>= fun change => done (ofChange change))
      (change wide field >>= fun change => done (ofChange change)) := by
  by_cases hfield : field = "permissions"
  · -- the one field where a vocabulary is asked
    subst hfield
    have hchange : ∀ vocabulary, (change vocabulary "permissions" >>= fun change =>
        done (ofChange change)) =
        (permissions vocabulary >>= fun names => done (ofChange (.permissions names))) := by
      intro vocabulary
      unfold change
      rw [if_neg (by decide), if_neg (by decide), if_pos rfl]
      exact bind_assoc _ _ _
    rw [hchange, hchange]
    exact widens_permissions_bind hwide fun names => .done _
  · have hchange : change narrow field = change wide field := by
      unfold change
      rw [if_neg hfield, if_neg hfield]
    rw [← hchange]
    apply widens_of_unpermitting
    refine kept_unpermitting.bind ?_ fun change => .done _
    exact kept_unpermitting.change fun hlist => absurd hlist hfield

theorem widens_updateUser (hwide : ∀ name, narrow.knows name = true → wide.knows name = true) :
    Widens narrow wide 4 (updateUser narrow) (updateUser wide) := by
  refine widens_word_bind (widens_text_bind fun username => widens_word_bind ?_)
  exact widens_text_bind fun field => widens_change hwide field _

theorem widens_registerUser (hwide : ∀ name, narrow.knows name = true → wide.knows name = true)
    (strict : Bool) :
    Widens narrow wide 4 (registerUser ⟨narrow, strict⟩) (registerUser ⟨wide, strict⟩) := by
  refine widens_connective_bind (widens_text_bind fun username => ?_)
  refine widens_text_bind fun password => ?_
  refine widens_connective_bind (widens_permissions_bind hwide fun names => ?_)
  exact kept_unpermitting.registered strict _

theorem unpermitting_put : Unpermitting put :=
  .next fun _ => kept_unpermitting.putValue _

theorem widens_statementAfter
    (hwide : ∀ name, narrow.knows name = true → wide.knows name = true) (strict : Bool)
    (kind : Token.Kind) :
    Widens narrow wide 4 (statementAfter ⟨narrow, strict⟩ kind)
      (statementAfter ⟨wide, strict⟩ kind) := by
  unfold statementAfter
  split
  · exact widens_of_unpermitting unpermitting_put
  · exact widens_of_unpermitting (kept_unpermitting.keyOrUser .get .getUser)
  · exact widens_of_unpermitting (kept_unpermitting.keyOrUser .delete .deleteUser)
  · exact widens_registerUser hwide strict
  · exact widens_updateUser hwide
  · exact widens_of_unpermitting kept_unpermitting.listUsers
  · exact widens_of_unpermitting (.refused (by simp))

theorem widens_statement (hwide : ∀ name, narrow.knows name = true → wide.knows name = true)
    (strict : Bool) :
    Widens narrow wide 5 (statement ⟨narrow, strict⟩) (statement ⟨wide, strict⟩) := by
  unfold statement
  exact widens_next (by simp) fun token => widens_statementAfter hwide strict token.kind

end Parts

end Reading

/-! ### Commands -/

theorem widened_ofTokens {narrow wide : Vocabulary}
    (hwide : ∀ name, narrow.knows name = true → wide.knows name = true) (strict : Bool)
    (tokens : List Token) :
    Reading.Widened narrow wide tokens[5]? (Statement.ofTokens ⟨narrow, strict⟩ tokens)
      (Statement.ofTokens ⟨wide, strict⟩ tokens) := by
  unfold Statement.ofTokens
  exact Reading.widens_statement hwide strict none tokens

/-- A larger vocabulary only helps.  Statements, and errors that are not about a permission, stay as
    they are.  An unknown entry is reconsidered: the first entry that is still unknown is reported
    at the same place, and if there is none no permission is refused any more.  Nothing depends on
    the order or the repetition of the names. -/
theorem ofTokens_enlarged (tokens : List Token) (strict : Bool) (names more : List String) :
    ((∀ name ∈ names, name ∈ more ∨ name = nonePermission) →
      (¬ Reading.RefusesPermission (Statement.ofTokens ⟨.ofNames names, strict⟩ tokens) →
        Statement.ofTokens ⟨.ofNames more, strict⟩ tokens =
          Statement.ofTokens ⟨.ofNames names, strict⟩ tokens) ∧
      ∀ name position, Statement.ofTokens ⟨.ofNames names, strict⟩ tokens =
          .error ⟨.unknownPermission name, position⟩ →
        ∃ list, tokens[5]? = some list ∧ position = some list.position ∧
          Reading.Reconsidered names more list name
            (Statement.ofTokens ⟨.ofNames more, strict⟩ tokens)) ∧
    ((∀ name, name ∈ names ∨ name = nonePermission ↔ name ∈ more ∨ name = nonePermission) →
      Statement.ofTokens ⟨.ofNames more, strict⟩ tokens =
        Statement.ofTokens ⟨.ofNames names, strict⟩ tokens) := by
  refine ⟨fun hmore => ?_, fun hsame => by rw [Vocabulary.ofNames_eq_of_forall hsame]⟩
  have hwidened := widened_ofTokens (Vocabulary.knows_of_forall hmore) strict tokens
  constructor
  · intro hresult
    exact Reading.eq_of_widened hwidened hresult
  · intro name position hresult
    exact Reading.exists_reconsidered hwidened hmore hresult

/-- With more names the entry behind the first unknown one is reported, or the list is granted. -/
theorem ofTokens_enlarged_twice :
    let tokens : List Token := [⟨.keyword .update, "update", 0⟩, ⟨.word, "user", 7⟩,
      ⟨.word, "ann", 12⟩, ⟨.word, "set", 16⟩, ⟨.word, "permissions", 20⟩,
      ⟨.string, "a, b ,c,b", 32⟩]
    Statement.ofTokens ⟨.ofNames ["a"], false⟩ tokens = .error ⟨.unknownPermission "b", some 32⟩ ∧
      (∀ name ∈ ["a"], name ∈ ["b", "a"] ∨ name = nonePermission) ∧
      (∃ other, PermissionList.FirstUnknown ["b", "a"]
          (PermissionList.entries "a, b ,c,b") other ∧
        Statement.ofTokens ⟨.ofNames ["b", "a"], false⟩ tokens =
          .error ⟨.unknownPermission other, some 32⟩ ∧
        (other = "b" ∨
          PermissionList.FollowsFirst (PermissionList.entries "a, b ,c,b") "b" other)) ∧
      ¬ Reading.RefusesPermission
        (Statement.ofTokens ⟨.ofNames ["c", "b", "a"], false⟩ tokens) ∧
      Statement.ofTokens ⟨.ofNames ["a", "none", "a"], false⟩ tokens =
        Statement.ofTokens ⟨.ofNames ["a"], false⟩ tokens := by
  intro tokens
  have hentries : PermissionList.entries "a, b ,c,b" = ["a", "b", "c", "b"] := by decide +kernel
  have hrefused : Statement.ofTokens ⟨.ofNames ["a"], false⟩ tokens =
      .error ⟨.unknownPermission "b", some 32⟩ := by decide +kernel
  have hmore : ∀ name ∈ ["a"], name ∈ ["b", "a"] ∨ name = nonePermission := by simp
  have hall : ∀ name ∈ ["a"], name ∈ ["c", "b", "a"] ∨ name = nonePermission := by simp
  have hsame : ∀ name, name ∈ ["a"] ∨ name = nonePermission ↔
      name ∈ ["a", "none", "a"] ∨ name = nonePermission := by
    intro name
    simp only [nonePermission, List.mem_cons, List.not_mem_nil, or_false]
    grind
  obtain ⟨list, hlist, -, hreconsidered⟩ :=
    ((ofTokens_enlarged tokens false _ _).1 hmore).2 "b" _ hrefused
  obtain rfl : (⟨.string, "a, b ,c,b", 32⟩ : Token) = list := Option.some.inj hlist
  obtain ⟨list, hlist, -, hgranted⟩ :=
    ((ofTokens_enlarged tokens false _ _).1 hall).2 "b" _ hrefused
  obtain rfl : (⟨.string, "a, b ,c,b", 32⟩ : Token) = list := Option.some.inj hlist
  refine ⟨hrefused, hmore, hreconsidered.later ⟨"c", ?_, by decide⟩, hgranted.granted ?_,
    (ofTokens_enlarged tokens false _ _).2 hsame⟩
  · rw [hentries]
    decide
  · rw [hentries]
    decide

end StoreCommand
