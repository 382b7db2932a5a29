import StoreCommand.Proofs.Statement.Rewritten
import StoreCommand.Registration

/-!
# Runs of a registration

A statement about permissions can be made in two ways: step by step, or by reading a command that
lists them.  The first way takes every name as it is and collapses the list at the end.  The second
way cuts the list into entries, trims them, drops the empty ones, looks every entry up in the
vocabulary and collapses what is left.

The two meet when a statement is written with the names as they were granted.  Reading it gives what
granting the entries of these names one by one would give (`ofText_registerUser_eq`,
`ofText_updatePermissions_eq`), unless the vocabulary does not know one of them.
-/

namespace StoreCommand

namespace Registration

/-! ### Runs -/

/-- A registration before its first step. -/
def start (username password : String) : Registration := { username, password }

def run (registration : Registration) (steps : List Step) : Registration :=
  steps.foldl take registration

namespace Step

def name? : Step → Option String
  | grant name => some name
  | setActive _ => none

def flag? : Step → Option Bool
  | grant _ => none
  | setActive flag => some flag

end Step

/-- The names that the steps grant, in order. -/
def granted (steps : List Step) : List String :=
  steps.filterMap Step.name?

/-- The state that the steps leave behind: the last one that sets it wins, and a new user is
    inactive. -/
def lastFlag (steps : List Step) : Bool :=
  (steps.filterMap Step.flag?).getLast?.getD false

theorem take_eq (registration : Registration) (step : Step) :
    registration.take step =
      ⟨registration.username, registration.password,
        registration.permissions ++ step.name?.toList,
        step.flag?.getD registration.active⟩ := by
  cases step with
  | grant name => rfl
  | setActive flag => simp [take, setActive, Step.name?, Step.flag?]

/-- Steps add names behind those that are there, and the last flag replaces the one that is there.
    In which order steps of the two sorts are taken does not matter. -/
theorem run_eq (registration : Registration) (steps : List Step) :
    registration.run steps =
      ⟨registration.username, registration.password,
        registration.permissions ++ granted steps,
        (steps.filterMap Step.flag?).getLast?.getD registration.active⟩ := by
  induction steps generalizing registration with
  | nil => simp [run, granted]
  | cons step rest ih =>
    have hrun : registration.run (step :: rest) = (registration.take step).run rest := rfl
    rw [hrun, ih, take_eq]
    cases step with
    | grant name => simp [granted, Step.name?, Step.flag?]
    | setActive flag =>
      -- this flag counts only if no later step sets one
      simp [granted, List.filterMap_cons, Step.name?, Step.flag?, List.getLast?_cons]

theorem statement_run (username password : String) (steps : List Step) :
    ((start username password).run steps).statement =
      .registerUser username password (PermissionList.collapse (granted steps))
        (lastFlag steps) := by
  rw [run_eq, statement, lastFlag]
  rfl

end Registration

/-! ### Reading a list that is not known -/

theorem ofTokens_registerUser_of_unknown {options : Options}
    {first userWord user password withWord list : Token} {rest : List Token} {unknown : String}
    (hfirst : first.kind = .keyword .register) (huser : userWord.text = "user")
    (hwith : withWord.text = "with")
    (hunknown : PermissionList.read options.vocabulary list.text = .error unknown) :
    Statement.ofTokens options
        (first :: userWord :: user :: password :: withWord :: list :: rest) =
      .error ⟨.unknownPermission unknown, some list.position⟩ := by
  have hregister : Reading.statementAfter options first.kind = Reading.registerUser options := by
    rw [hfirst]
    rfl
  rw [Statement.ofTokens, Reading.run, Reading.statement, Reading.runAfter_next_cons, hregister,
    Reading.registerUser, Reading.runAfter_connective_bind _ _ huser, Reading.runAfter_text_bind,
    Reading.runAfter_text_bind, Reading.runAfter_connective_bind _ _ hwith,
    Reading.runAfter_permissions_bind, hunknown]

theorem ofTokens_updateUser_of_unknown {options : Options}
    {first selector user setter field list : Token} {rest : List Token} {unknown : String}
    (hfirst : first.kind = .keyword .update) (huser : selector.text = "user")
    (hset : setter.text = "set") (hfield : field.text = "permissions")
    (hunknown : PermissionList.read options.vocabulary list.text = .error unknown) :
    Statement.ofTokens options (first :: selector :: user :: setter :: field :: list :: rest) =
      .error ⟨.unknownPermission unknown, some list.position⟩ := by
  have hupdate : Reading.statementAfter options first.kind =
      Reading.updateUser options.vocabulary := by
    rw [hfirst]
    rfl
  have hchange : Reading.change options.vocabulary "permissions" =
      Reading.permissions options.vocabulary >>= fun names => pure (.permissions names) := by
    simp [Reading.change]
  rw [Statement.ofTokens, Reading.run, Reading.statement, Reading.runAfter_next_cons, hupdate,
    Reading.updateUser, Reading.runAfter_word_bind, if_pos huser, Reading.runAfter_text_bind,
    Reading.runAfter_word_bind, if_pos hset, Reading.runAfter_text_bind, hfield, hchange,
    bind_assoc, Reading.runAfter_permissions_bind, hunknown]

/-! ### Where the list stands -/

theorem exists_intercalate_append (front : List String) (piece : String) (pieces : List String)
    (hne : front ≠ []) :
    ∃ back, " ".intercalate (front ++ piece :: pieces) =
      (" ".intercalate front ++ " ") ++ (piece ++ back) := by
  rw [String.intercalate_append_of_ne_nil hne (by simp)]
  cases pieces with
  | nil => exact ⟨"", by simp⟩  -- a last piece has no space behind it
  | cons next others =>
    refine ⟨" " ++ " ".intercalate (next :: others), ?_⟩
    rw [String.intercalate_cons_cons]
    simp only [String.append_assoc]

/-- The piece of a row behind `front` is a token whose position is the length of the text in front
    of it. -/
theorem exists_tokenize_behind {front behind : List Lexeme} {lexeme : Lexeme}
    {frontPieces pieces : List String} {piece : String}
    (hfront : List.Forall₂ Lexeme.Spells front frontPieces) (hne : frontPieces ≠ [])
    (hbehind : List.Forall₂ Lexeme.Spells (lexeme :: behind) (piece :: pieces)) :
    ∃ later, tokenize (" ".intercalate (frontPieces ++ piece :: pieces)) =
      .ok (Lexeme.tokensFrom 0 front ++
        lexeme.token (" ".intercalate frontPieces ++ " ").length :: later) := by
  have htokens := tokenize_intercalate (List.rel_append hfront hbehind)
  rw [Lexeme.tokensFrom_append, ← length_intercalate hfront hne, Nat.zero_add,
    Lexeme.tokensFrom] at htokens
  exact ⟨_, htokens⟩

/-- An unknown entry is blamed on the opening quote of its list. -/
theorem ofText_of_unknown {options : Options} {front behind : List Lexeme}
    {frontPieces pieces : List String} {list unknown : String}
    (hfront : List.Forall₂ Lexeme.Spells front frontPieces) (hne : frontPieces ≠ [])
    (hlist : hasBothQuotes list.toList = false)
    (hbehind : List.Forall₂ Lexeme.Spells behind pieces)
    (hblamed : ∀ (token : Token) (rest : List Token), token.text = list →
      Statement.ofTokens options (Lexeme.tokensFrom 0 front ++ token :: rest) =
        .error ⟨.unknownPermission unknown, some token.position⟩) :
    Statement.ofText options (" ".intercalate (frontPieces ++ quoted list :: pieces)) =
      .error (.parse ⟨.unknownPermission unknown,
        some (" ".intercalate frontPieces ++ " ").length⟩) := by
  rcases exists_tokenize_behind hfront hne (.cons (Lexeme.spells_between hlist) hbehind) with
    ⟨later, htokens⟩
  refine ofText_eq_parse_error_iff.2 ⟨_, htokens, ?_⟩
  rw [hblamed _ later (text_token_between list _), Lexeme.token_between]

/-! ### Reading what was granted -/

/-- What comes of a command with a list of these entries, where the list begins at `place`: the
    statement `known`, unless the vocabulary does not know one of the entries. -/
def outcomeOfList (options : Options) (place : Nat) (entries : List String) (known : Statement) :
    Except CommandError Statement :=
  match entries.find? fun name => !options.vocabulary.knows name with
  | some unknown => .error (.parse ⟨.unknownPermission unknown, some place⟩)
  | none => .ok known

theorem outcomeOfList_of_known {options : Options} {entries : List String}
    (h : ∀ name ∈ entries, options.vocabulary.knows name = true) (place : Nat)
    (known : Statement) : outcomeOfList options place entries known = .ok known := by
  have hnone : entries.find? (fun name => !options.vocabulary.knows name) = none := by
    apply List.find?_eq_none.2
    intro name hname
    simp [h name hname]
  rw [outcomeOfList, hnone]

/-- The text of a registration in front of its list. -/
def registrationOpening (username password : String) : String :=
  " ".intercalate ["register", "user", quoted username, quoted password, "with"] ++ " "

/-- The text of a change of permissions in front of its list. -/
def updateOpening (username : String) : String :=
  " ".intercalate ["update", "user", quoted username, "set", "permissions"] ++ " "

theorem ofText_registerUser_of_unknown {options : Options} {username password unknown : String}
    {names : List String} (active : Bool) (husername : hasBothQuotes username.toList = false)
    (hpassword : hasBothQuotes password.toList = false)
    (hnames : hasBothQuotes (PermissionList.joined names).toList = false)
    (hread : PermissionList.read options.vocabulary (PermissionList.joined names) =
      .error unknown) :
    Statement.ofText options (Statement.registerUser username password names active).canonical =
      .error (.parse ⟨.unknownPermission unknown,
        some (registrationOpening username password).length⟩) := by
  have hfront : List.Forall₂ Lexeme.Spells
      [.bare "register", .bare "user", .between username, .between password, .bare "with"]
      ["register", "user", quoted username, quoted password, "with"] :=
    Piece.spells_row [.word "register", .word "user", .string username husername,
      .string password hpassword, .word "with"]
  rcases exists_flagForm options.strict active with ⟨lexemes, hspells, -⟩
  have hbehind : List.Forall₂ Lexeme.Spells (.bare "and" :: .bare "is" :: lexemes)
      ("and" :: "is" :: if active then ["active"] else ["not", "active"]) :=
    Piece.spells_row_append [.word "and", .word "is"] hspells
  have hpieces : (Statement.registerUser username password names active).pieces =
      ["register", "user", quoted username, quoted password, "with"] ++
        quoted (PermissionList.joined names) ::
          "and" :: "is" :: if active then ["active"] else ["not", "active"] := rfl
  rw [Statement.canonical, hpieces]
  refine ofText_of_unknown hfront (by simp) hnames hbehind ?_
  intro token rest htext
  apply ofTokens_registerUser_of_unknown (kind_token_bare .register _)
    (Lexeme.text_token_small (by simp) _) (Lexeme.text_token_small (by simp) _)
  rw [htext, hread]

theorem ofText_updatePermissions_of_unknown {options : Options} {username unknown : String}
    {names : List String} (husername : hasBothQuotes username.toList = false)
    (hnames : hasBothQuotes (PermissionList.joined names).toList = false)
    (hread : PermissionList.read options.vocabulary (PermissionList.joined names) =
      .error unknown) :
    Statement.ofText options (Statement.updateUser username (.permissions names)).canonical =
      .error (.parse ⟨.unknownPermission unknown, some (updateOpening username).length⟩) := by
  have hfront : List.Forall₂ Lexeme.Spells
      [.bare "update", .bare "user", .between username, .bare "set", .bare "permissions"]
      ["update", "user", quoted username, "set", "permissions"] :=
    Piece.spells_row [.word "update", .word "user", .string username husername, .word "set",
      .word "permissions"]
  refine ofText_of_unknown hfront (by simp) hnames .nil ?_
  intro token rest htext
  apply ofTokens_updateUser_of_unknown (kind_token_bare .update _)
    (Lexeme.text_token_small (by simp) _) (Lexeme.text_token_small (by simp) _)
    (Lexeme.text_token_small (by simp) _)
  rw [htext, hread]

theorem ofText_registerUser_eq (options : Options) {username password : String}
    {names : List String} (active : Bool) (husername : hasBothQuotes username.toList = false)
    (hpassword : hasBothQuotes password.toList = false)
    (hnames : hasBothQuotes (PermissionList.joined names).toList = false) :
    Statement.ofText options (Statement.registerUser username password names active).canonical =
      outcomeOfList options (registrationOpening username password).length
        (names.flatMap PermissionList.entries)
        (.registerUser username password
          (PermissionList.collapse (names.flatMap PermissionList.entries)) active) := by
  rw [← PermissionList.entries_joined_eq_flatMap]
  cases hread : PermissionList.read options.vocabulary (PermissionList.joined names) with
  | ok granted =>
    -- what is granted are the collapsed entries, and all of them are known
    have hgrants := PermissionList.read_eq_ok_iff.1 hread
    rw [ofText_registerUser_of_grants active husername hpassword hnames hgrants,
      outcomeOfList_of_known hgrants.known, PermissionList.collapsed_iff.2 hgrants.collapsed]
  | error unknown =>
    rw [ofText_registerUser_of_unknown active husername hpassword hnames hread, outcomeOfList,
      PermissionList.read_eq_error_iff.1 hread]

theorem ofText_updatePermissions_eq (options : Options) {username : String} {names : List String}
    (husername : hasBothQuotes username.toList = false)
    (hnames : hasBothQuotes (PermissionList.joined names).toList = false) :
    Statement.ofText options (Statement.updateUser username (.permissions names)).canonical =
      outcomeOfList options (updateOpening username).length
        (names.flatMap PermissionList.entries)
        (.updateUser username (.ofPermissions (names.flatMap PermissionList.entries))) := by
  rw [← PermissionList.entries_joined_eq_flatMap]
  cases hread : PermissionList.read options.vocabulary (PermissionList.joined names) with
  | ok granted =>
    have hgrants := PermissionList.read_eq_ok_iff.1 hread
    have hspells : List.Forall₂ Lexeme.Spells
        [.bare "permissions", .between (PermissionList.joined names)]
        ["permissions", quoted (PermissionList.joined names)] :=
      Piece.spells_row [.word "permissions", .string _ hnames]
    have hchanged : ∀ position, ChangeForm options.vocabulary (Lexeme.tokensFrom position
        [.bare "permissions", .between (PermissionList.joined names)]) (.permissions granted) := by
      intro position
      refine .permissions (Lexeme.text_token_small (by simp) _) ?_
      rwa [text_token_between]
    rw [ofText_updateUser_of_changeForm husername hspells hchanged,
      outcomeOfList_of_known hgrants.known, UserChange.ofPermissions,
      PermissionList.collapsed_iff.2 hgrants.collapsed]
  | error unknown =>
    rw [ofText_updatePermissions_of_unknown husername hnames hread, outcomeOfList,
      PermissionList.read_eq_error_iff.1 hread]

/-- The text of `written` has the list of `names` behind `opening`.  Reading it gives `built`, or
    the first unknown entry of the names, blamed on the opening quote of the list. -/
structure ReadsList (options : Options) (opening : String) (names : List String)
    (written built : Statement) : Prop where
  text : ∃ back, written.canonical = opening ++ (quoted (PermissionList.joined names) ++ back)
  outcome : Statement.ofText options written.canonical =
    outcomeOfList options opening.length (names.flatMap PermissionList.entries) built

theorem readsList_registerUser (options : Options) {username password : String}
    {names : List String} (active : Bool) (husername : hasBothQuotes username.toList = false)
    (hpassword : hasBothQuotes password.toList = false)
    (hnames : hasBothQuotes (PermissionList.joined names).toList = false) :
    ReadsList options (registrationOpening username password) names
      (.registerUser username password names active)
      (.registerUser username password
        (PermissionList.collapse (names.flatMap PermissionList.entries)) active) :=
  ⟨exists_intercalate_append ["register", "user", quoted username, quoted password, "with"]
      (quoted (PermissionList.joined names)) _ (by simp),
    ofText_registerUser_eq options active husername hpassword hnames⟩

theorem readsList_updatePermissions (options : Options) {username : String} {names : List String}
    (husername : hasBothQuotes username.toList = false)
    (hnames : hasBothQuotes (PermissionList.joined names).toList = false) :
    ReadsList options (updateOpening username) names (.updateUser username (.permissions names))
      (.updateUser username (.ofPermissions (names.flatMap PermissionList.entries))) :=
  ⟨exists_intercalate_append ["update", "user", quoted username, "set", "permissions"]
      (quoted (PermissionList.joined names)) _ (by simp),
    ofText_updatePermissions_eq options husername hnames⟩

/-- Known names that are entries themselves are read as they are. -/
theorem ReadsList.ofText_of_known {options : Options} {opening : String} {names : List String}
    {written built : Statement} (h : ReadsList options opening names written built)
    (hnames : ∀ name ∈ names, options.vocabulary.knows name = true ∧
      PermissionList.IsEntry name) :
    Statement.ofText options written.canonical = .ok built := by
  rw [h.outcome, PermissionList.flatMap_entries fun name hname => (hnames name hname).2]
  exact outcomeOfList_of_known (fun name hname => (hnames name hname).1) _ built

/-- Building and reading agree.  The statement of a run is that of the names it grants and the last
    flag it sets.  If it is written with these names as they are and read again, the result is the
    statement of any run that grants the entries instead of the names, unless one of them is
    unknown.  The same holds of a change of permissions. -/
theorem ofText_canonical_of_run (options : Options) (username password : String)
    {steps : List Registration.Step} {names : List String} {active : Bool}
    (hgranted : Registration.granted steps = names)
    (hactive : Registration.lastFlag steps = active) :
    ((Registration.start username password).run steps).statement =
      .registerUser username password (PermissionList.collapse names) active ∧
    (hasBothQuotes username.toList = false →
      hasBothQuotes (PermissionList.joined names).toList = false →
      (hasBothQuotes password.toList = false →
        (∀ others, Registration.granted others = names.flatMap PermissionList.entries →
          Registration.lastFlag others = active →
          ReadsList options (registrationOpening username password) names
            (.registerUser username password names active)
            ((Registration.start username password).run others).statement) ∧
        ((∀ name ∈ names, options.vocabulary.knows name = true ∧ PermissionList.IsEntry name) →
          Statement.ofText options
              (Statement.registerUser username password names active).canonical =
            .ok ((Registration.start username password).run steps).statement)) ∧
      ReadsList options (updateOpening username) names (.updateUser username (.permissions names))
        (.updateUser username (.ofPermissions (names.flatMap PermissionList.entries))) ∧
      ((∀ name ∈ names, options.vocabulary.knows name = true ∧ PermissionList.IsEntry name) →
        Statement.ofText options (Statement.updateUser username (.permissions names)).canonical =
          .ok (.updateUser username (.ofPermissions names)))) := by
  have hstatement : ∀ (others : List Registration.Step) (segments : List String),
      Registration.granted others = segments → Registration.lastFlag others = active →
      ((Registration.start username password).run others).statement =
        .registerUser username password (PermissionList.collapse segments) active := by
    intro others segments hothers hflag
    rw [Registration.statement_run, hothers, hflag]
  refine ⟨hstatement steps names hgranted hactive, ?_⟩
  intro husername hnames
  refine ⟨?_, readsList_updatePermissions options husername hnames, ?_⟩
  · intro hpassword
    have hreads := readsList_registerUser options active husername hpassword hnames
    constructor
    · intro others hothers hflag
      rw [hstatement others _ hothers hflag]
      exact hreads
    · -- names that are entries are their own entries, so the given run is such a run
      intro hknown
      have hentries := PermissionList.flatMap_entries fun name hname => (hknown name hname).2
      rw [hstatement steps names hgranted hactive, hreads.ofText_of_known hknown, hentries]
  · intro hknown
    have hentries := PermissionList.flatMap_entries fun name hname => (hknown name hname).2
    rw [(readsList_updatePermissions options husername hnames).ofText_of_known hknown, hentries]

/-- A run with blanks, an empty name and two names in one step, and a run with plain names. -/
theorem ofText_canonical_of_run_grants :
    (Registration.granted [.grant " add , edit", .setActive true, .grant "", .grant "read"] =
        [" add , edit", "", "read"] ∧
      ReadsList {} (registrationOpening "é" "p'") [" add , edit", "", "read"]
        (.registerUser "é" "p'" [" add , edit", "", "read"] true)
        ((Registration.start "é" "p'").run
          [.grant "add", .grant "edit", .setActive true, .grant "read"]).statement ∧
      ReadsList {} (updateOpening "é") [" add , edit", "", "read"]
        (.updateUser "é" (.permissions [" add , edit", "", "read"]))
        (.updateUser "é" (.ofPermissions ["add", "edit", "read"]))) ∧
    (Registration.granted [.setActive true, .grant "read", .setActive false, .grant "none"] =
        ["read", "none"] ∧
      Statement.ofText {} (Statement.registerUser "u" "p" ["read", "none"] false).canonical =
        .ok ((Registration.start "u" "p").run
          [.setActive true, .grant "read", .setActive false, .grant "none"]).statement) := by
  have hentries : [" add , edit", "", "read"].flatMap PermissionList.entries =
      ["add", "edit", "read"] := by decide +kernel
  have hgranted : Registration.granted
      [.grant " add , edit", .setActive true, .grant "", .grant "read"] =
        [" add , edit", "", "read"] := by decide
  have hflag : Registration.lastFlag
      [.grant " add , edit", .setActive true, .grant "", .grant "read"] = true := by decide
  have hblanks := (ofText_canonical_of_run {} "é" "p'" hgranted hflag).2 (by decide +kernel)
    (by decide +kernel)
  have hplain : Registration.granted
      [.setActive true, .grant "read", .setActive false, .grant "none"] = ["read", "none"] := by
    decide
  have hlast : Registration.lastFlag
      [.setActive true, .grant "read", .setActive false, .grant "none"] = false := by decide
  have hknown : ∀ name ∈ ["read", "none"], Vocabulary.standard.knows name = true ∧
      PermissionList.IsEntry name := by
    intro name hname
    have hstandard : Vocabulary.standard.knows name = true := by
      rcases List.mem_cons.1 hname with rfl | hname
      · decide +kernel
      · rw [List.mem_singleton.1 hname]
        exact PermissionList.knows_none _
    exact ⟨hstandard, (PermissionList.isEntry_of_standard hstandard).1⟩
  have hnames := (ofText_canonical_of_run {} "u" "p" hplain hlast).2 (by decide +kernel)
    (by decide +kernel)
  refine ⟨⟨hgranted, ?_, ?_⟩, hplain, ?_⟩
  · apply (hblanks.1 (by decide +kernel)).1
    · rw [hentries]
      decide
    · decide
  · rw [← hentries]
    exact hblanks.2.1
  · exact (hnames.1 (by decide +kernel)).2 hknown

end StoreCommand
