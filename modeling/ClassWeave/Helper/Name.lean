/-!
# Helpers

The operations that a file imports from the helper module.
-/

namespace ClassWeave

inductive Helper where
  | tx
  | tm
  /-- Looks up a configuration at run time; never compiled. -/
  | tv
deriving DecidableEq, Repr

namespace Helper

def name : Helper → String
  | tx => "tx"
  | tm => "tm"
  | tv => "tv"

def ofExport (name : String) : Option Helper :=
  if name = "tx" then some tx
  else if name = "tm" then some tm
  else if name = "tv" then some tv
  else none

def isCompiled : Helper → Bool
  | tv => false
  | _ => true

end Helper
end ClassWeave
