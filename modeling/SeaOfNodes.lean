import SeaOfNodes.Main
import SeaOfNodes.Proofs.Symbol
import SeaOfNodes.Proofs.Pass.Forward
import SeaOfNodes.Proofs.Scope.Order
import SeaOfNodes.Proofs.Scope.Merge
import SeaOfNodes.Proofs.Pass.Late
import SeaOfNodes.Proofs.Pass.Rest
import SeaOfNodes.Proofs.Graph.Handles
import SeaOfNodes.Proofs.Graph.Redirect
import SeaOfNodes.Proofs.Token.Respacing
import SeaOfNodes.Proofs.Token.Literal
import SeaOfNodes.Proofs.Token.Lookahead
import SeaOfNodes.Proofs.Parse.Address
import SeaOfNodes.Proofs.Number.Word
import SeaOfNodes.Proofs.Ty.Sound
import SeaOfNodes.Proofs.Parse.Layout
import SeaOfNodes.Proofs.Parse.Surroundings
import SeaOfNodes.Proofs.Build.Memory
import SeaOfNodes.Proofs.Ty.WellFormed
import SeaOfNodes.Proofs.Build.Error
import SeaOfNodes.Proofs.Build.Simplify
