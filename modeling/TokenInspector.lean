import TokenInspector.Command.Logging
import TokenInspector.Main
import TokenInspector.Proofs.Command.Literals
import TokenInspector.Proofs.Command.MemberLines
import TokenInspector.Proofs.Command.Spellings
import TokenInspector.Proofs.Command.TokenLines
import TokenInspector.Proofs.Enumeration.Coverage
import TokenInspector.Proofs.Enumeration.DeclarationOrder
import TokenInspector.Proofs.Enumeration.ExactNames
import TokenInspector.Proofs.Enumeration.IntegerLiterals
import TokenInspector.Proofs.Scan.Sessions
import TokenInspector.Proofs.Source.Concatenation
import TokenInspector.Proofs.Source.Construction
import TokenInspector.Proofs.Source.LineEnds
import TokenInspector.Proofs.StableOrder
