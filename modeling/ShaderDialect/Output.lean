import ShaderDialect.Failure
import ShaderDialect.Program

/-! The shaders that a program produces: one for each shader block, or, without blocks, one for each
stage that has an entry point. -/
namespace ShaderDialect

structure Output where
  name : String
  stage : Stage
  features : FeatureSet
  /-- The items of its block, if it has one. -/
  block : Option (List Item)

def Stage.suffix : Stage → String
  | vertex => "vert"
  | pixel => "frag"
  | compute => "comp"

namespace Item

mutual
/-- The stages of the entry points in all branches; blocks are not entered. -/
def entryStages : Item → List Stage
  | entry e => [e.stage]
  | branch _ yes no _ => entryStagesList yes ++ entryStagesList no
  | _ => []

def entryStagesList : List Item → List Stage
  | [] => []
  | i :: is => i.entryStages ++ entryStagesList is
end

end Item

def Program.blockOutput? : Item → Option Output
  | .block stage features name items _ => some { name, stage, features, block := some items }
  | _ => none

/-- The outputs of a program, in order. Without blocks they are named for the file, and for their
stages if there are several. -/
def Program.outputs (p : Program) (fileName : String) : Except Failure (List Output) :=
  let blocks := p.items.filterMap blockOutput?
  let loose := [Stage.vertex, .pixel, .compute].filter (Item.entryStagesList p.items).contains
  match blocks, loose with
  | _ :: _, _ :: _ => .error (.program fileName .entryOutsideBlock)
  | _ :: _, [] => .ok blocks
  | [], [stage] => .ok [{ name := fileName, stage, features := .empty, block := none }]
  | [], stages => .ok (stages.map fun stage =>
      { name := s!"{fileName}_{stage.suffix}", stage, features := .empty, block := none })

end ShaderDialect
