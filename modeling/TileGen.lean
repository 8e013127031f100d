import TileGen.Program.Basic
import TileGen.Flat.Basic
import TileGen.Flat.NeedsZero
import TileGen.Flat.Simplify
import TileGen.Flat.Merge
import TileGen.Flat.Wrap
import TileGen.Unify.Components
import TileGen.Unify.Fixpoint
import TileGen.Unify.DoUnification
import TileGen.Unify.Walk
import TileGen.Unify.Strides
import TileGen.Compile.Driver
import TileGen.Compile.Run
import TileGen.Compile.Guarantees
import TileGen.Compile.Accounting
import TileGen.Compile.Strides
import TileGen.Compile.Errors
import TileGen.Compile.Dataflow
import TileGen.Compile.Names
import TileGen.Compile.Semantics
import TileGen.Compile.Preservation
