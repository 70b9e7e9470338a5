import LazyExpr.Lowering.Lower
import LazyExpr.Machine.Drive
import LazyExpr.Syntax.Read
import LazyExpr.Tree.Print

namespace LazyExpr

/-- The expression of a print site with its program. -/
structure Site where
  expr : Expr
  program : Program
  streams : Bool

namespace Site

/-- Nothing is known of the variables of a site: every parameter and local may be pending. -/
def setting : Setting := .static [] []

def ofExpr (e : Expr) : Site :=
  let plan := (setting.lowerPrint e 0).1
  ⟨e, .assemble plan.code, plan.isStream⟩

def compile (source : String) : Except ReadError Site := (read source).map ofExpr

/-- Nobody completes handles while a site is rendered at one go. -/
def noDriver (site : Site) : Driver Unit := fun point _ world =>
  (.error (.detachedWithoutDriver site.expr.print site.expr.span point), world)

/-- The output of a site whose variables are all ready: the effects of the resulting handle and its text. -/
def render (site : Site) (o : Options) (scene : Scene) : Outcome String × Log :=
  let arrival := drive site.program o scene.host site.noDriver ⟨scene.store, scene.cancelled, ()⟩
  (arrival.result >>= Slot.render scene.store, arrival.log)

end Site

/-- Why a source text was not rendered. -/
inductive RenderError
  | unreadable (error : ReadError)
  | failed (failure : Failure)

def RenderError.message : RenderError → String
  | unreadable error => error.diagnostic.message ++ "\n"
  | failed failure => failure.message

/-- Reads, lowers and runs the expression of a print site. -/
def render (source : String) (o : Options) (scene : Scene) : Except RenderError String × Log :=
  match Site.compile source with
  | .error error => (.error (.unreadable error), [])
  | .ok site =>
    match site.render o scene with
    | (.ok text, log) => (.ok text, log)
    | (.error failure, log) => (.error (.failed failure), log)

end LazyExpr
