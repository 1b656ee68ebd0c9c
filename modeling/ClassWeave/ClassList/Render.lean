import ClassWeave.ClassList.Part
import ClassWeave.Literal.Quoted
/-!
# Writing class lists

Parts are written with one space between two, except that a conditional brings its own spaces. A list
of text alone is a string literal, any other a template literal.
-/

namespace ClassWeave

def space (wanted : Bool) : Text := if wanted then [' '] else []

def renderConditional (test : Text) (value : Branch) (lead trail : Bool) : Text :=
  let consequent := match value with
    | .text text => Quoted.encode (space lead ++ text ++ space trail)
    | .expression source =>
      (if lead then "\" \" + ".toList else []) ++ source ++
        (if trail then " + \" \"".toList else [])
  let alternate := Quoted.encode (space (lead && trail))
  embedded (test ++ " ? ".toList ++ consequent ++ " : ".toList ++ alternate)

/-- The source of the parts, where `first` tells whether nothing stands in front of them, and
`behindConditional` whether a conditional does. -/
def renderParts : (first behindConditional : Bool) → List Part → Text
  | _, _, [] => []
  | first, behindConditional, part :: rest =>
    let separated := !(first || behindConditional)
    match part with
    | .text text => space separated ++ TemplateText.escape text ++ renderParts false false rest
    | .splice source => space separated ++ source ++ renderParts false false rest
    | .embed source => space separated ++ embedded source ++ renderParts false false rest
    | .conditional test value =>
      let segment :=
        if rest.all Part.isConditional then renderConditional test value (!first) false
        else renderConditional test value separated true
      segment ++ renderParts false true rest

def Part.constant? : Part → Option Text
  | .text words => some words
  | _ => none

def render (parts : List Part) : Text :=
  match parts.mapM Part.constant? with
  | some texts => Quoted.encode (Text.joinWith [' '] texts)
  | none => TemplateText.mark :: renderParts true false parts ++ [TemplateText.mark]

end ClassWeave
