import StyleRef.Main
import StyleRef.Proofs.Reordering
import StyleRef.Proofs.Insertion
import StyleRef.Proofs.Leaves
import StyleRef.Proofs.Scopes
import StyleRef.Proofs.Balance
import StyleRef.Proofs.Joining
import StyleRef.Proofs.SecondRun
import StyleRef.Proofs.Rereading
import StyleRef.Proofs.Plain
import StyleRef.Proofs.Placement
import StyleRef.Proofs.Comments
import StyleRef.Proofs.Entries
import StyleRef.Proofs.Recorded
import StyleRef.Proofs.Reloading
import StyleRef.Proofs.OuterSpace
import StyleRef.Proofs.ValueSpace
import StyleRef.Proofs.SelectorSpace
import StyleRef.Proofs.QuerySpace
import StyleRef.Proofs.Survival
import StyleRef.Proofs.Keeping
import StyleRef.Proofs.Spans
import StyleRef.Proofs.Marks
import StyleRef.Proofs.Dependencies
import StyleRef.Proofs.Isolation
import StyleRef.Proofs.Collecting
import StyleRef.Proofs.TokenGrammar
import StyleRef.Proofs.SelectorLists
import StyleRef.Proofs.OwnSelector
import StyleRef.Proofs.Annotation
import StyleRef.Proofs.MediaRuns
import StyleRef.Proofs.WrittenTokens
