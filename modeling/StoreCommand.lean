import StoreCommand.Registration
import StoreCommand.Session
import StoreCommand.Statement.Canonical
import StoreCommand.Statement.Record
import StoreCommand.Proofs.Lexeme.Longest
import StoreCommand.Proofs.Lexeme.Scanned
import StoreCommand.Proofs.Statement.Sentence
import StoreCommand.Proofs.Permission.Entries
import StoreCommand.Proofs.Binary64.ReadBack
import StoreCommand.Proofs.Statement.Form
import StoreCommand.Proofs.Lexeme.Origin
import StoreCommand.Proofs.Statement.Expressible
import StoreCommand.Proofs.Statement.Rewritten
import StoreCommand.Proofs.Statement.RoundTrip
import StoreCommand.Proofs.Statement.Prefix
import StoreCommand.Proofs.Statement.QuotedKey
import StoreCommand.Proofs.Statement.Strict
import StoreCommand.Proofs.Statement.Requoted
import StoreCommand.Proofs.Lexeme.Passage
import StoreCommand.Proofs.Lexeme.Locality
import StoreCommand.Proofs.Lexeme.Contents
import StoreCommand.Proofs.Lexeme.Repair
import StoreCommand.Proofs.Lexeme.Recased
import StoreCommand.Proofs.Lexeme.OneWord
import StoreCommand.Proofs.Statement.Blame
import StoreCommand.Proofs.Registration.Run
import StoreCommand.Proofs.Session.Run
import StoreCommand.Proofs.Statement.Parts
import StoreCommand.Proofs.Statement.Observed
import StoreCommand.Proofs.Statement.Enlarged
import StoreCommand.Proofs.Permission.Combined
import StoreCommand.Proofs.Statement.Recorded
import StoreCommand.Proofs.Text.Pieces
import StoreCommand.Proofs.Binary64.Nearest
import StoreCommand.Proofs.Binary64.NumberText
import StoreCommand.Proofs.Value.Denoted
import StoreCommand.Proofs.Value.Literal
import StoreCommand.Proofs.Statement.Distinct
