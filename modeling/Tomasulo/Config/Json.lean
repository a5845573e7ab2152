import Tomasulo.Config
import Tomasulo.Json.Shape

/-!
# Config/Json — configurations as JSON

A configuration is an object with the members `general` and `pipeline`, which hold the parameters
under their keys.  What is not written keeps the value of the baseline machine, so a text names only
what differs; keys that mean nothing here are passed over.
-/

namespace Tomasulo.Config

open Json

/-- A parameter as a member. -/
def member (p : Parameter) : Member Config where
  key := p.key
  absence := .default
  read c := do return c.set p (← Read.natural64)

/-- The register parameters. -/
def generalShape : Shape Config where
  members := [member .registers]

/-- The parameters of the pipeline. -/
def pipelineShape : Shape Config where
  members := Parameter.pipeline.map member

/-- A whole configuration. -/
def shape : Shape Config where
  members :=
    [⟨"general", .default, generalShape.read⟩,
     ⟨"pipeline", .default, pipelineShape.read⟩]

/-- **Reads a configuration**; what it leaves out is as in the baseline machine. -/
def ofJson (text : String) : Except Defect Config :=
  (shape.read baseline).run text

/-- Parameters with their values. -/
def parameterJson (c : Config) (parameters : List Parameter) : Value :=
  .object (parameters.map fun p => (p.key, .nat (c.get p)))

/-- The register parameters as an object. -/
def generalJson (c : Config) : Value :=
  c.parameterJson [.registers]

/-- The parameters of the pipeline as an object. -/
def pipelineJson (c : Config) : Value :=
  c.parameterJson Parameter.pipeline

/-- **A configuration as an object**, every parameter written out. -/
def toJson (c : Config) : Value :=
  .object [("general", c.generalJson), ("pipeline", c.pipelineJson)]

end Tomasulo.Config
