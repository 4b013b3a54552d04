/-
  Xvr.Backend.TopLevel — procedures (`xvr_llvm_function_emitter.cpp`) and the nodes of a
  program (`xvr_llvm_codegen.cpp`).

  Main and the procedures share the builder and the table of local variables: a procedure
  empties the table, and main goes on at its entry block.
-/

import Xvr.Backend.Emission

namespace Xvr.Backend

open Xvr.Runtime
open Xvr.Frontend (Node)

namespace Codegen

/-- `Xvr_LLVMContextHasError`. -/
def hasError (s : Codegen) : Bool := !s.contextErrors.isEmpty

/-! ## Functions -/

/-- The name LLVM gives: one in use gets a number behind it. -/
def uniqueName (name : List Char) (s : Codegen) : List Char :=
  if s.functions.any (·.name = name) then name ++ '.' :: (toString s.functions.length).toList else name

/-- `LLVMAddFunction`. -/
def addFunction (name : List Char) (returnType : LlvmType) (parameters : List LlvmType) (s : Codegen) : Codegen :=
  { s with functions := s.functions ++ [⟨s.uniqueName name, returnType, parameters⟩] }

/-- `LLVMGetEntryBasicBlock`. -/
def entryBlock (fn : Value) (s : Codegen) : Option Nat := s.blocks.findIdx? (·.parent = fn)

/-- A new entry block, and the builder in it. -/
def enterFunction (fn : Value) (s : Codegen) : Codegen := (s.createBlock fn "entry").setInsertPoint s.blocks.length

/-- The builder stands in the function. -/
def isInside (fn : Value) (s : Codegen) : Bool :=
  match s.insertBlock with
  | none => false
  | some b => s.blocks[b]?.any (·.parent = fn)

def setCurrentFunction (fn : Value) (s : Codegen) : Codegen :=
  { s with fnEmitter := { s.fnEmitter with currentFunction := some fn } }

end Codegen

/-! ## Declarations -/

structure Parameter where
  name : List Char
  type : LiteralType

def parameter : Node → Option Parameter
  | .varDecl identifier typeLiteral _ _ =>
    some {
      name := match identifier with
        | .identifier name => name
        | _ => "arg".toList
      type := match typeLiteral with
        | .type typeOf _ _ => typeOf
        | _ => .any }
  | _ => none

/-- The length of `param_types`. -/
def maxParameters : Nat := 32

def parameters : Node → List Parameter
  | .fnCollection nodes => (nodes.take maxParameters).filterMap parameter
  | _ => []

/-- The first return type, `int` when there is none. -/
def returnTypeOf : Node → LlvmType
  | .fnCollection (.literal (.type typeOf _ _) :: _) => if typeOf = .any then .integer 32 else typeMapperGetType typeOf
  | _ => .integer 32

def functionName : Literal → List Char
  | .identifier name | .string name => name
  | _ => "xvr_fn".toList

/-- Two types of one `LLVMTypeKind`. -/
def LlvmType.sameKind : LlvmType → LlvmType → Bool
  | .integer _, .integer _ | .array _ _, .array _ _ => true
  | a, b => a = b

def LlvmType.kindName : LlvmType → String
  | .integer _ => "int"
  | .float => "float"
  | .pointer => "ptr"
  | _ => "void"

/-- Every parameter gets an alloca that holds it. -/
def emitParameters : List Parameter → Nat → Codegen → Codegen
  | [], _, s => s
  | p :: ps, i, s =>
    let type := typeMapperGetType p.type
    let (alloca, s) := s.build (.alloca type)
    let (_, s) := s.build (.store (.parameter i type) alloca)
    emitParameters ps (i + 1) { s with fnEmitter := s.fnEmitter.addEntry ⟨some p.name, some alloca, p.type, 0⟩ }

/-! ## The statements of a procedure -/

section

variable (library : Library Value)

/-- The value of a return: its first expression; without any, the value there was. -/
def returnValue (returns : Node) (value : Option Value) : Action :=
  match returns with
  | .null | .fnCollection [] => fun s => (value, s)
  | .fnCollection (node :: _) => emit library node
  | node => emit library node

/-- `check_return_type_compatibility`. -/
def checkReturnType (returnType : LlvmType) (name : List Char) (value : Value) (s : Codegen) : Bool × Codegen :=
  if returnType = .void || returnType.sameKind value.typeOf then (true, s)
  else
    (false, s.setContextError
      s!"function '{String.ofList name}': return type mismatch: expected '{returnType.kindName}', got '{value.typeOf.kindName}'")

/-- A return among the statements of the body: only its value is kept. The outer `none` is
    an error. -/
def emitReturn (returnType : LlvmType) (name : List Char) (returns : Node) (value : Option Value) (s : Codegen) :
    Option (Option Value) × Codegen :=
  let (value, s) := returnValue library returns value s
  if s.hasError then (none, s)
  else
    match value with
    | none => (some none, s)
    | some result =>
      if returnType = .void then (none, s.setContextError "void function cannot return a value")
      else
        match checkReturnType returnType name result s with
        | (true, s) => (some value, s)
        | (false, s) => (none, s)

/-- The value of a last statement without a return before it is returned. -/
def implicitValue (returnType : LlvmType) (value result : Option Value) : Option Value :=
  match result with
  | none => value
  | some v => if v.typeOf.sameKind returnType && returnType != .void then some v else value

/-- The statements from one on, with the value to return and whether a return was found. -/
def emitStatements (returnType : LlvmType) (name : List Char) :
    List Node → Option Value → Bool → Codegen → Option (Option Value × Bool) × Codegen
  | [], value, found, s => (some (value, found), s)
  | .fnReturn returns :: rest, value, _, s =>
    match emitReturn library returnType name returns value s with
    | (none, s) => (none, s)
    | (some value, s) => emitStatements returnType name rest value true s
  | statement :: rest, value, found, s =>
    let (result, s) := emit library statement s
    if s.hasError then (none, s)
    else
      emitStatements returnType name rest
        (if rest.isEmpty && !found then implicitValue returnType value result else value) found s

/-- The return at the end. -/
def finishBody (returnType : LlvmType) (name : List Char) (value : Option Value) (found : Bool) (s : Codegen) :
    Bool × Codegen :=
  if returnType = .void then
    if value.isSome then (false, s.setContextError "void function cannot return a value") else (true, s.createRet none)
  else
    match value with
    | some v => (true, s.createRet (some v))
    | none =>
      if found then (true, s)
      else (false, s.setContextError s!"function '{String.ofList name}': missing return statement")

/-- The function, its entry block and its parameters. -/
def openFunction (name : List Char) (returnType : LlvmType) (params : List Parameter) (s : Codegen) : Codegen :=
  let fn := Value.function s.functions.length
  let s := { s with fnEmitter := s.fnEmitter.clearLocalVars }
  let s := (s.addFunction name returnType (params.map fun p => typeMapperGetType p.type)).setCurrentFunction fn
  emitParameters params 0 (s.enterFunction fn)

/-- `emit_function_body`. The parser makes the body a block. -/
def emitFunctionBody (identifier : Literal) (arguments returns body : Node) (s : Codegen) : Bool × Codegen :=
  match body with
  | .block statements =>
    let name := functionName identifier
    let returnType := returnTypeOf returns
    match emitStatements library returnType name statements none false
        (openFunction name returnType (parameters arguments) s) with
    | (none, s) => (false, s)
    | (some (value, found), s) => finishBody returnType name value found s
  | _ => (false, s.setContextError "function has no body")

/-- `Xvr_LLVMFunctionEmitterEmit`. -/
def emitProcedure : Node → Codegen → Bool × Codegen
  | .fnDecl identifier arguments returns body _ => emitFunctionBody library identifier arguments returns body
  | _ => fun s => (false, s)

/-- `Xvr_LLVMFunctionEmitterEmitCollection`. -/
def emitCollection : List Node → Codegen → Bool × Codegen
  | [], s => (true, s)
  | node :: nodes, s =>
    match emitProcedure library node s with
    | (false, s) => (false, s)
    | (true, s) => emitCollection nodes s

/-! ## Main -/

def mainName : List Char := "main".toList

/-- `ensure_main_function`: unless the builder is in main already, it goes to the entry block. -/
def ensureMainFunction (s : Codegen) : Codegen :=
  match s.getFunction mainName with
  | none =>
    let fn := Value.function s.functions.length
    { ((s.addFunction mainName (.integer 32) []).enterFunction fn).setCurrentFunction fn with mainCreated := true }
  | some fn =>
    match s.entryBlock fn with
    | some entry =>
      if s.isInside fn then s
      else { (s.setInsertPoint entry).setCurrentFunction fn with mainCreated := true }
    | none => { (s.enterFunction fn).setCurrentFunction fn with mainCreated := true }

/-- `finalize_main_function`. -/
def finalizeMainFunction (s : Codegen) : Codegen :=
  if s.mainCreated then s.createRet (some (.constant (.integer 32) 0)) else s

/-- `emit_main_function`. -/
def emitMainFunction (statement : Node) (s : Codegen) : Bool × Codegen :=
  let (_, s) := emit library statement (ensureMainFunction s)
  (!s.hasError, s)

/-- What follows a procedure. -/
def thenMain (result : Bool × Codegen) : Bool × Codegen :=
  if result.1 then (true, ensureMainFunction result.2) else result

/-- `Xvr_LLVMCodegenEmitAST`. What an import emits depends on a file. -/
def emitAST (importModule : Literal → Codegen → Bool × Codegen) (node : Node) (s : Codegen) : Bool × Codegen :=
  if s.hasError then (false, s)
  else
    match node with
    | .importNode identifier _ => importModule identifier s
    | .fnCollection nodes => thenMain (emitCollection library nodes s)
    | .fnDecl _ _ _ _ _ => thenMain (emitProcedure library node s)
    | node => emitMainFunction library node s

/-- The nodes of a program, whatever the results. -/
def emitProgram (importModule : Literal → Codegen → Bool × Codegen) : List Node → Codegen → Codegen
  | [], s => s
  | node :: nodes, s => emitProgram importModule nodes (emitAST library importModule node s).2

end

end Xvr.Backend
