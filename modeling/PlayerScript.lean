import PlayerScript.Main
import PlayerScript.Proofs.Json.Agreement
import PlayerScript.Proofs.Token.Lossless
import PlayerScript.Proofs.Ast.Climbing
import PlayerScript.Proofs.Source.Partners
import PlayerScript.Proofs.Eval.Loops
import PlayerScript.Proofs.Eval.Limit
import PlayerScript.Proofs.Decipher.Run
import PlayerScript.Proofs.Eval.Escapes
import PlayerScript.Proofs.Ast.Depth
import PlayerScript.Proofs.Eval.Names
import PlayerScript.Proofs.Eval.Comments
import PlayerScript.Proofs.Eval.Assignment
import PlayerScript.Proofs.Ast.Sequence
import PlayerScript.Proofs.Eval.Switch
import PlayerScript.Proofs.Eval.Height
import PlayerScript.Proofs.Eval.Repetition
import PlayerScript.Proofs.Value.Searches
import PlayerScript.Proofs.Value.Bitwise
import PlayerScript.Proofs.Json.RoundTrip
import PlayerScript.Proofs.Ast.Ranges.Brackets
import PlayerScript.Proofs.Value.ArrayNumbers
import PlayerScript.Proofs.Eval.Borrowed
import PlayerScript.Proofs.Memo.Moments
