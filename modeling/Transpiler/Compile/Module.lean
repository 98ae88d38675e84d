import Transpiler.Compile.Stmt

/-!
# Compiling modules

A module is compiled to a list of statements that starts with the declaration of its variables. If
its code calls run-time functions, the module that collects them is compiled too and put in front.
-/

namespace Transpiler.Compile

open Script (Js)
open Source (Ref Stmt)

def compileBody (templates : Templates) (cfg : Config) (here : Place) (body : List Stmt) : Run Js := do
  let names := Source.localNames body
  setEntry Context.varsKey (.names names)
  let js ← compileBlock templates cfg here body
  let globals := (← get).globals
  let vars := names.filter (!globals.contains ·)
  let n := cfg.origin none
  let declaration : List Js :=
    if vars.isEmpty then [] else [.declare n .var true vars (vars.map fun _ => .absent)]
  return .statements n (declaration ++ js)

def compileTemplate : Templates := fun cfg body =>
  let none : Templates := fun _ _ => .error .notSource
  Run.result (compileBody none cfg .top body) Session.isolated

structure Compiled where
  script : Js
  session : Session

def compileModule (cfg : Config) (here : Place) (body : List Stmt) : Except Fault Compiled :=
  match compileBody compileTemplate cfg here body Session.start with
  | .ok js session => .ok ⟨js, session⟩
  | .error fault _ => .error fault

/-- Compiles statements on their own: they may not call run-time functions, and all output is mapped
to `remap` if it is given. -/
def compileIsolated (cfg : Config) (remap : Option Ref) (body : List Stmt) : Except Fault Js :=
  let cfg := { cfg with remap := remap, snippets := false, mapped := true }
  Run.result (compileBody compileTemplate cfg .top body) Session.isolated

/-- Compiles the module that collects run-time functions. It has no place in the source map. -/
def compileLibrary (cfg : Config) (fs : List Snippet) : Except Fault Js :=
  let cfg := { cfg with remap := none, snippets := false, mapped := false }
  Run.result (compileBody compileTemplate cfg .top (librarySource fs)) Session.isolated

/-- Compiles statements one after the other, without the declarations of a module, and writes
each. -/
def compileEach (cfg : Config) (body : List Stmt) : Except Fault (List String) :=
  let step (s : Stmt) : Run String := do
    ofExcept (← compileStmt compileTemplate cfg .top s).render?
  Run.result (body.mapM step) Session.start

def before (first second : Js) : Js :=
  match first, second with
  | .statements o items, .statements _ more => .statements o (items ++ more)
  | _, _ => second

/-- The script of a compilation with the run-time functions that it calls. -/
def Compiled.withLibrary (cfg : Config) (c : Compiled) : Except Fault Js := do
  match c.session.snippets.getD [] with
  | [] => return c.script
  | fs => return before (← compileLibrary cfg fs) c.script

end Transpiler.Compile
