import SmallScript.Main
import SmallScript.Scope.Action
import SmallScript.Syntax.Node
import SmallScript.Proofs.Grammar.Nesting
import SmallScript.Proofs.Operators
import SmallScript.Proofs.Session
import SmallScript.Proofs.Lookup
import SmallScript.Proofs.Renaming
import SmallScript.Proofs.Reading.Barrier
import SmallScript.Proofs.Resumption
import SmallScript.Proofs.Machine
import SmallScript.Proofs.Commands
import SmallScript.Proofs.History
import SmallScript.Proofs.Listing
import SmallScript.Proofs.Layout
import SmallScript.Proofs.Reading.Begun
import SmallScript.Proofs.Recovery
import SmallScript.Proofs.Reports
import SmallScript.Proofs.Literal
import SmallScript.Proofs.Dump
