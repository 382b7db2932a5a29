import Mathlib.Algebra.GroupWithZero.Nat
import StoreCommand.Proofs.Statement.Observed
import StoreCommand.Session

/-!
# Runs of a session

Of the two halves of a session every step changes one at most.  The options are those that were set
last, and a reset makes everything before it forgotten.  The tokens that wait are the newest of
those that were fed: a step adds tokens at the end or takes some away at the front, and a text with
an error does neither (`exists_pending_run`).

A command may be fed in pieces.  The waiting tokens then have other positions than the tokens of the
whole command, but the same kinds and texts, and no reading looks at anything else.  So the session
reads the statement that the whole command is (`statement_run_feed_eq_ok_iff`).
-/

namespace StoreCommand

namespace Session

def run (session : Session) (steps : List Step) : Session :=
  steps.foldl take session

theorem run_cons (session : Session) (step : Step) (rest : List Step) :
    session.run (step :: rest) = (session.take step).run rest := rfl

namespace Step

/-- What the step makes of the options. -/
def adjust : Step → Options → Options
  | setStrict flag, options => { options with strict := flag }
  | setPermissions names, options => { options with vocabulary := .ofNames names }
  | reset, _ => {}
  | feed _, options => options
  | drop _, options => options

def flag? : Step → Option Bool
  | setStrict flag => some flag
  | _ => none

def vocabulary? : Step → Option Vocabulary
  | setPermissions names => some (.ofNames names)
  | _ => none

/-- The tokens that the step adds; a text with an error has none. -/
def fed : Step → List Token
  | feed text => (tokenize text).toOption.getD []
  | _ => []

/-- How many tokens the step takes away at most. -/
def dropped : Step → Nat
  | drop count => count
  | _ => 0

end Step

/-! ### Steps -/

theorem take_feed_of_error {text : String} {error : ScanError} (h : tokenize text = .error error)
    (session : Session) : session.take (.feed text) = session := by
  rw [take, feed, h]
  rfl

theorem take_feed_of_ok {text : String} {tokens : List Token} (h : tokenize text = .ok tokens)
    (session : Session) :
    session.take (.feed text) = ⟨session.options, session.pending ++ tokens⟩ := by
  rw [take, feed, h]
  rfl

/-- A step acts on the options and on the waiting tokens apart. -/
theorem take_eq (session : Session) (step : Step) :
    session.take step =
      ⟨step.adjust session.options, (session.pending ++ step.fed).drop step.dropped⟩ := by
  cases step with
  | feed text =>
    cases htokens : tokenize text with
    | error error =>
      -- nothing is added where the text has no tokens
      rw [take_feed_of_error htokens, Step.fed, htokens]
      simp [Step.adjust, Step.dropped, Except.toOption]
    | ok tokens =>
      rw [take_feed_of_ok htokens, Step.fed, htokens]
      simp [Step.adjust, Step.dropped, Except.toOption]
  | drop count => simp [take, drop, Step.adjust, Step.fed, Step.dropped]
  | _ => simp [take, setStrict, setPermissions, reset, Step.adjust, Step.fed, Step.dropped]

/-! ### Options -/

theorem options_run (session : Session) (steps : List Step) :
    (session.run steps).options =
      steps.foldl (fun options step => step.adjust options) session.options := by
  induction steps generalizing session with
  | nil => rfl
  | cons step rest ih =>
    rw [run_cons, ih, take_eq, List.foldl_cons]

/-- Whatever was set before a reset does not count. -/
theorem options_run_reset (session : Session) (before later : List Step) :
    (session.run (before ++ .reset :: later)).options = (({} : Session).run later).options := by
  rw [options_run, options_run, List.foldl_append, List.foldl_cons]
  rfl

/-- Without a reset the last vocabulary and the last flag count, each for itself. -/
theorem options_run_of_notMem {steps : List Step} (h : .reset ∉ steps) (session : Session) :
    (session.run steps).options =
      { vocabulary := (steps.filterMap Step.vocabulary?).getLast?.getD session.options.vocabulary
        strict := (steps.filterMap Step.flag?).getLast?.getD session.options.strict } := by
  induction steps generalizing session with
  | nil => rfl
  | cons step rest ih =>
    rw [run_cons, ih fun hmem => h (List.mem_cons_of_mem step hmem), take_eq]
    cases step with
    | reset => exact absurd List.mem_cons_self h
    -- what this step sets counts only if no later step sets it again
    | setStrict flag =>
      simp [Step.adjust, List.filterMap_cons, Step.flag?, Step.vocabulary?, List.getLast?_cons]
    | setPermissions names =>
      simp [Step.adjust, List.filterMap_cons, Step.flag?, Step.vocabulary?, List.getLast?_cons]
    | feed | drop => simp [Step.adjust, Step.flag?, Step.vocabulary?]

/-! ### Waiting tokens -/

/-- Taking away more than there is does not reach what comes later. -/
theorem drop_append_drop (front back : List Token) (first count : Nat) :
    (front.drop first ++ back).drop count =
      (front ++ back).drop (min first front.length + count) := by
  have hfront : front.drop first = front.drop (min first front.length) := by
    rcases Nat.le_total first front.length with hle | hge
    · rw [Nat.min_eq_left hle]
    · rw [Nat.min_eq_right hge, List.drop_of_length_le hge, List.drop_length]
  rw [hfront, ← List.drop_append_of_le_length (Nat.min_le_right _ _), List.drop_drop]

/-- The tokens that wait are those that waited and those that were fed since, without some of the
    oldest, and these are at most as many as were to be taken away. -/
theorem exists_pending_run (session : Session) (steps : List Step) :
    ∃ count ≤ (steps.map Step.dropped).sum,
      (session.run steps).pending = (session.pending ++ steps.flatMap Step.fed).drop count := by
  induction steps generalizing session with
  | nil => exact ⟨0, Nat.le_refl 0, by simp [run]⟩
  | cons step rest ih =>
    rcases ih (session.take step) with ⟨count, hcount, hpending⟩
    refine ⟨min step.dropped (session.pending ++ step.fed).length + count, ?_, ?_⟩
    · rw [List.map_cons, List.sum_cons]
      omega
    · rw [run_cons, hpending, take_eq, drop_append_drop, List.flatMap_cons, List.append_assoc]

/-- Nothing is lost as long as nothing is taken away. -/
theorem pending_run_of_dropped_eq_zero {steps : List Step}
    (h : (steps.map Step.dropped).sum = 0) (session : Session) :
    (session.run steps).pending = session.pending ++ steps.flatMap Step.fed := by
  rcases exists_pending_run session steps with ⟨count, hcount, hpending⟩
  obtain rfl : count = 0 := by omega
  exact hpending

/-! ### Commands in pieces -/

theorem exists_tokenize_pieces {pieces : List String}
    (h : ∀ piece ∈ pieces, ∃ tokens, tokenize piece = .ok tokens) :
    ∃ tokens, tokenize (" ".intercalate pieces) = .ok tokens ∧
      tokens.map Token.content =
        ((pieces.map Step.feed).flatMap Step.fed).map Token.content := by
  induction pieces with
  | nil => exact ⟨[], scan_nil 0, rfl⟩
  | cons piece others ih =>
    rcases h piece List.mem_cons_self with ⟨tokens, htokens⟩
    have hfed : (Step.feed piece).fed = tokens := by
      rw [Step.fed, htokens]
      rfl
    cases others with
    | nil => exact ⟨tokens, by rwa [String.intercalate_singleton], by simp [hfed]⟩
    | cons other others =>
      rcases ih fun later hlater => h later (List.mem_cons_of_mem piece hlater) with
        ⟨more, hmore, hcontents⟩
      have hspace : ∀ c ∈ " ".toList, isBlank c = true := by
        simpa using (show isBlank ' ' = true by decide)
      -- the space ends the piece, and the rest is moved behind it
      have hwhole := tokenize_append htokens
        (cleanJoin_space piece.toList (" ".intercalate (other :: others)))
      rw [tokenize_blanks_append hspace, hmore, shifted, shifted, Except.map] at hwhole
      refine ⟨_, by rwa [String.intercalate_cons_cons, String.append_assoc], ?_⟩
      rw [List.map_append, List.map_map, List.map_map, List.map_cons, List.flatMap_cons, hfed,
        List.map_append, ← hcontents]
      rfl

theorem run_feed (session : Session) (pieces : List String) :
    session.run (pieces.map .feed) =
      ⟨session.options, session.pending ++ (pieces.map Step.feed).flatMap Step.fed⟩ := by
  induction pieces generalizing session with
  | nil => simp [run]
  | cons piece others ih =>
    have hkept : (Step.feed piece).dropped = 0 := rfl
    rw [List.map_cons, run_cons, ih, take_eq, hkept, List.drop_zero, List.flatMap_cons,
      List.append_assoc, Step.adjust]

/-- A command whose pieces are fed is read as the whole, up to the positions of errors. -/
theorem agree_statement_run_feed {session : Session} (hidle : session.pending = [])
    {pieces : List String} (h : ∀ piece ∈ pieces, ∃ tokens, tokenize piece = .ok tokens) :
    ∃ tokens, tokenize (" ".intercalate pieces) = .ok tokens ∧
      Reading.Agree tokens (session.run (pieces.map .feed)).pending
        (Statement.ofTokens session.options tokens)
        (session.run (pieces.map .feed)).statement := by
  rcases exists_tokenize_pieces h with ⟨tokens, htokens, hcontents⟩
  refine ⟨tokens, htokens, ?_⟩
  rw [statement, run_feed, hidle, List.nil_append]
  exact agree_of_alike session.options (alike_of_content_eq hcontents.symm)

theorem statement_run_feed_eq_ok_iff {session : Session} (hidle : session.pending = [])
    {pieces : List String} (h : ∀ piece ∈ pieces, ∃ tokens, tokenize piece = .ok tokens)
    {result : Statement} :
    (session.run (pieces.map .feed)).statement = .ok result ↔
      session.statementOf (" ".intercalate pieces) = .ok result := by
  rcases agree_statement_run_feed hidle h with ⟨tokens, htokens, hagree⟩
  rw [← hagree.eq_ok_iff, statementOf, Statement.ofText, htokens]
  simp only
  cases Statement.ofTokens session.options tokens with
  | error error => simp
  | ok statement => simp

end Session

end StoreCommand
