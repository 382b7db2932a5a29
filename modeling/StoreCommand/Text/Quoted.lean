/-!
# Quoted text

A string is written between two quotes of one sort and has no escapes, so it can hold any character
but that quote.  The double quote is preferred; the single quote is used for a text that holds a
double quote and no single one.  A text with both cannot be written so that it reads back.
-/

namespace StoreCommand

def quoteFor (text : List Char) : Char :=
  if '"' ∈ text ∧ '\'' ∉ text then '\'' else '"'

def quoted (text : String) : String :=
  String.ofList (quoteFor text.toList :: text.toList ++ [quoteFor text.toList])

def hasBothQuotes (text : List Char) : Bool :=
  text.contains '"' && text.contains '\''

theorem hasBothQuotes_iff {text : List Char} :
    hasBothQuotes text = true ↔ '"' ∈ text ∧ '\'' ∈ text := by
  simp [hasBothQuotes]

/-- The chosen quote occurs in a text only if both quotes do. -/
theorem quoteFor_notMem {text : List Char} (h : hasBothQuotes text = false) :
    quoteFor text ∉ text := by
  have hnot : ¬ ('"' ∈ text ∧ '\'' ∈ text) := fun hboth => by
    simp [hasBothQuotes_iff.2 hboth] at h
  unfold quoteFor
  split
  · rename_i hquote
    exact hquote.2
  · rename_i hquote
    intro hmem
    by_cases hsingle : '\'' ∈ text
    · exact hnot ⟨hmem, hsingle⟩
    · exact hquote ⟨hmem, hsingle⟩

end StoreCommand
