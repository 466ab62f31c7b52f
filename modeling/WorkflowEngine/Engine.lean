import WorkflowEngine.Config.Reading
import WorkflowEngine.Discovery
import WorkflowEngine.Run

/-! Workflow engines.

An engine has a configuration, a resolver, the documents it has read and the actions it may invoke.
Two engines share nothing.
-/

set_option autoImplicit false

namespace WorkflowEngine

structure Engine (σ : Type) where
  config : Config
  resolver : Resolver
  cache : Cache
  registry : Registry σ

namespace Engine

variable {σ : Type}

/-- An engine without actions. A relative root is seen from the working directory. -/
def build (fs : FileSystem) (config : Config) : Except Error (Engine σ) := do
  config.validate
  let config := config.anchor fs.workingDirectory.path
  let settings := config.workflows
  let resolver ←
    Resolver.build fs settings.root settings.extension settings.sandbox settings.normalization
  .ok { config, resolver, cache := .empty, registry := .empty }

def withRoot (fs : FileSystem) (root : Path) : Except Error (Engine σ) :=
  build fs (Config.default.withRoot root)

def ofConfigFile (fs : FileSystem) (path : Path) (o : Overrides) : Except Error (Engine σ) := do
  build fs (← Config.load fs (some path) o)

def root (e : Engine σ) : Location := e.resolver.root

def register (e : Engine σ) (name : String) (action : Action σ) : Engine σ :=
  { e with registry := e.registry.register name action }

def withBuiltins (e : Engine σ) : Engine σ := { e with registry := e.registry.withBuiltins }

def runner (e : Engine σ) : Runner σ where
  resolver := e.resolver
  registry := e.registry
  defaultPause := .ofMilliseconds e.config.workflows.defaultWait

def run (e : Engine σ) (budget : Nat) (target : Target) (params : Params) (host : Host σ) :
    Option (Runner.Finished σ × Engine σ) :=
  (e.runner.run budget target params ⟨host, e.cache⟩).map fun finished =>
    (finished, { e with cache := finished.session.cache })

def resolveGraph (e : Engine σ) (fs : FileSystem) (target : Target) :
    Except GraphFailure ImportGraph × Engine σ :=
  let (graph, cache) := e.resolver.resolveTargetGraph fs e.cache target
  (graph, { e with cache })

def load (e : Engine σ) (fs : FileSystem) (l : Location) : Except Error Document × Engine σ :=
  let (document, cache) := e.cache.load fs l
  (document, { e with cache })

def reset (e : Engine σ) : Engine σ := { e with cache := .empty }

def resolveAlias (e : Engine σ) (name : String) : Reference :=
  ⟨Text.trim ((e.config.aliases.find? (Text.trim name)).getD name)⟩

def referenceTo (extension : String) (names : List String) : String :=
  let spelled := (String.intercalate "/" names).toList.map Text.asSlash
  String.ofList ((Text.beforeFinish? ('.' :: extension.toList) spelled).getD spelled)

def listWorkflows (e : Engine σ) (fs : FileSystem) : List String :=
  (fs.discover e.root.path e.resolver.extension e.config.workflows.discoveryDepth).map
    (referenceTo e.resolver.extension)

end Engine

end WorkflowEngine
