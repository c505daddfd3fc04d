import Stencil.Main
import Stencil.Proofs.Fields
import Stencil.Proofs.Interpreter
import Stencil.Proofs.Execution
import Stencil.Proofs.Paths
import Stencil.Proofs.Layout
import Stencil.Proofs.Emission
import Stencil.Proofs.Stations
import Stencil.Proofs.Simulation
import Stencil.Proofs.Rendering
import Stencil.Proofs.Expansion
import Stencil.Proofs.Caches
import Stencil.Proofs.Contexts
import Stencil.Proofs.Contract
import Stencil.Proofs.Nesting
import Stencil.Proofs.Escaping
import Stencil.Proofs.Inlining
import Stencil.Proofs.Grammar
import Stencil.Proofs.Lexing
import Stencil.Proofs.Scoping
import Stencil.Proofs.Printing
import Stencil.Proofs.Validation
import Stencil.Proofs.Forest
import Stencil.Proofs.Twins
import Stencil.Proofs.Separation
import Stencil.Proofs.Inclusion
import Stencil.Proofs.Layers
import Stencil.Proofs.Legality
import Stencil.Proofs.Building
import Stencil.Proofs.Verbatim
import Stencil.Proofs.Interpolation
import Stencil.Proofs.Doubles
import Stencil.Proofs.Equality
import Stencil.Proofs.References
import Stencil.Proofs.Naturals
import Stencil.Proofs.Sequences
import Stencil.Proofs.Positions
import Stencil.Proofs.Resolution
import Stencil.Proofs.Coverage
import Stencil.Proofs.Offences
