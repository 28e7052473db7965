/-!
# Options of a run

## Main Definitions

* `Options` - the bounds and switches of a run, with their defaults
* `Options.withMaxRounds` - sets the bound on rounds, which is at least one
-/

namespace TypeFlow

/-- The bounds and switches of a run. -/
structure Options where
  /-- How often the body of a recursive function is run before its result is given up. -/
  maxRounds : Nat
  /-- How many activations may be nested. -/
  maxCallDepth : Nat
  /-- Whether unbound names that are read are collected. -/
  strictUnbound : Bool
  /-- Whether the built-in globals are bound before the run. -/
  seedBuiltins : Bool
deriving DecidableEq, Repr

namespace Options

/-- The options of a run that asks for nothing else. -/
def standard : Options :=
  ⟨16, 64, false, true⟩

instance : Inhabited Options := ⟨standard⟩

/-- Sets the bound on rounds; a body is always run once. -/
def withMaxRounds (o : Options) (n : Nat) : Options :=
  { o with maxRounds := max n 1 }

end Options

end TypeFlow
