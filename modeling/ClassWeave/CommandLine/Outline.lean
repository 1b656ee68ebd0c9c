import ClassWeave.Script.Module
/-!
# Outlines

The items of a module as a text for readers or as a JSON text. Places count from one.
-/

namespace ClassWeave.Outline

def kindName (item : Node) : String :=
  match Module.ItemKind.of item with
  | .exchange => "ModuleDeclaration"
  | .statement => "Statement"

def itemLine (item : Node) : String :=
  s!"        {kindName item}({item.span.start + 1}..{item.span.stop + 1}),\n"

def body (items : List Node) : String :=
  if items.isEmpty then "[]"
  else "[\n" ++ String.join (items.map itemLine) ++ "    ]"

def stop (m : Module) : Nat := (Module.body m.text).byteLength + 1

def text (m : Module) : String :=
  "Module \x7b\n" ++ s!"    span: 1..{stop m},\n    body: {body m.items},\n    shebang: None,\n" ++
    "\x7d\n"

def itemObject (item : Node) : String :=
  "    \x7b\n      \"type\": \"" ++ kindName item ++ "\",\n      \"span\": \x7b\n" ++
    s!"        \"start\": {item.span.start + 1},\n        \"end\": {item.span.stop + 1}\n" ++
    "      \x7d\n    \x7d"

def array (items : List Node) : String :=
  if items.isEmpty then "[]"
  else "[\n" ++ String.intercalate ",\n" (items.map itemObject) ++ "\n  ]"

def json (m : Module) : String :=
  "\x7b\n  \"type\": \"Module\",\n  \"span\": \x7b\n    \"start\": 1,\n" ++
    s!"    \"end\": {stop m}\n" ++ "  \x7d,\n  \"body\": " ++ array m.items ++
    ",\n  \"interpreter\": null\n\x7d\n"

end ClassWeave.Outline
