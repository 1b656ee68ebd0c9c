/-!
# Options

What a caller decides about one transformation.
-/

namespace ClassWeave

structure Options where
  fileName : Option String := none
  moduleName : Option String := none
  maxPasses : Nat := 100
deriving DecidableEq, Repr

namespace Options

def defaultModule : String := "@mkx419/tx"

def module (options : Options) : String := options.moduleName.getD defaultModule

def isHelperModule (options : Options) (source : String) : Bool :=
  source == defaultModule || source == options.module

end Options
end ClassWeave
