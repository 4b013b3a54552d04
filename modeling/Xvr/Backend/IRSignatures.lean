/-
  Xvr.Backend.IRSignatures — the signature of a procedure in the internal IR
  (`translate_function` and `map_literal_type_to_ir` of `core/ir/xvr_ir_generator.cpp`,
  `Xvr_IRModuleAddFunction`), beside what the parser's `fnDecl` reads.

  The generator looks for a compound node with the parameters and for a literal node with the
  return type. The parser puts both into function collections, so neither is ever found, and
  what is left are the defaults.

  Not modelled: the body, which goes into the blocks of the function. Allocations succeed.

  Proved:
  - `fnDecl_shape`: the tree of a procedure, whatever its text.
  - `translateFunction_procedure`, `created`: what is made of such a tree, and for which names.
  - `signature_matches_iff`: the function made of it has the declared signature exactly when
    there are no parameters and every declared return type is one mapped to void.
-/

import Xvr.Lib.Answers
import Xvr.Lib.CStrings
import Xvr.Frontend.ParserRuns

namespace Xvr.Backend.IR

open Xvr.Runtime Xvr.Frontend Xvr.Frontend.Parse Xvr.Lib

/-! ## The generator -/

/-- `Xvr_IRType`, as far as a literal's type is mapped to one. -/
inductive IRType where
  | void | int1 | int8 | int16 | int32 | int64 | float | double
  | pointer (elemType : IRType)
  deriving DecidableEq, Repr

/-- `Xvr_IRTypeCreateInt`. -/
def typeCreateInt (bits : Nat) : IRType :=
  match bits with
  | 1 => .int1
  | 8 => .int8
  | 16 => .int16
  | 64 => .int64
  | _ => .int32

def mapLiteralTypeToIR : LiteralType → IRType
  | .null | .void => .void
  | .boolean => typeCreateInt 1
  | .integer | .int8 | .int16 | .int32 | .int64 | .uint8 | .uint16 | .uint32 | .uint64 => typeCreateInt 32
  | .float | .float16 | .float32 => .float
  | .float64 => .double
  | .string => .pointer (typeCreateInt 8)
  | .array | .arrayIntermediate => .pointer (typeCreateInt 8)
  | .dictionary | .dictionaryIntermediate => .pointer (typeCreateInt 8)
  | .function | .functionNative | .functionIntermediate => .pointer (typeCreateInt 8)
  | .identifier => .pointer (typeCreateInt 8)
  | .type | .typeIntermediate => .pointer (typeCreateInt 8)
  | _ => .void

/-- `Xvr_IRFunction`: a parameter type may be NULL; blocks by their names. -/
structure IRFunction where
  name : List Char
  returnType : IRType
  paramTypes : List (Option IRType)
  blocks : List String
  deriving DecidableEq, Repr

/-- `Xvr_IRGenerator`: the functions of its module, and its error. -/
structure IRGenerator where
  functions : List IRFunction
  error : Option String

/-- `xvr_ir_strdup`: a text that is not shorter than the maximum is refused. -/
def irStrdup (str : List Char) (maxLen : Nat) : Option (List Char) :=
  let text := str.takeWhile (· != CStrings.nul)
  if maxLen ≤ text.length then none else some text

/-- `Xvr_IRModuleAddFunction`. -/
def moduleAddFunction (functions : List IRFunction) (name : List Char) (returnType : IRType)
    (paramTypes : List (Option IRType)) : Option (List IRFunction × IRFunction) :=
  (irStrdup name 256).map fun name =>
    let func := ⟨name, returnType, paramTypes, []⟩
    (functions ++ [func], func)

/-- What is read of `fn_decl->returns`. -/
def returnTypeOf : Node → IRType
  | .literal (.type typeOf _ _) => mapLiteralTypeToIR typeOf
  | _ => .void

/-- The type of one node of the compound. -/
def paramTypeOf : Node → Option IRType
  | .varDecl _ (.type typeOf _ _) _ _ => some (mapLiteralTypeToIR typeOf)
  | .varDecl _ _ _ _ => some (typeCreateInt 32)
  | _ => none

/-- What is read of `fn_decl->arguments`. -/
def paramTypesOf : Node → List (Option IRType)
  | .compound _ nodes => nodes.map paramTypeOf
  | _ => []

/-- The name of an identifier; other literals are read as none. -/
def nameOf : Literal → List Char
  | .identifier name => name
  | _ => "anonymous".toList

def translateFunction (gen : IRGenerator) : Node → IRGenerator
  | .fnDecl identifier arguments returns _ _ =>
    match moduleAddFunction gen.functions (nameOf identifier) (returnTypeOf returns) (paramTypesOf arguments) with
    | none => { gen with error := some "Failed to create IR function" }
    | some (_, func) => { gen with functions := gen.functions ++ [{ func with blocks := func.blocks ++ ["entry"] }] }
  | _ => gen

/-! ## Declarations -/

/-- A parameter as it is declared. -/
structure Parameter where
  identifier : Literal
  typeLiteral : Literal
  line : Nat

def Parameter.node (q : Parameter) : Node := .varDecl q.identifier q.typeLiteral .null q.line

/-- The tree of a procedure. -/
def procedure (name : List Char) (parameters : List Parameter) (returns : List Literal) (block : Node) (line : Nat) :
    Node :=
  .fnDecl (.identifier name) (.fnCollection (parameters.map Parameter.node)) (.fnCollection (returns.map .literal))
    block line

theorem declaredName_answers (msg : String) : Answers (declaredName msg) fun r => ∃ name, r.2 = .identifier name := by
  unfold declaredName identifierLiteral
  exact .after fun _ => .after fun _ => .bind (.after fun _ => .after fun _ => .pure ⟨_, rfl⟩) fun _ h => .pure h

variable {rec : Rec}

def AreParameters (nodes : List Node) : Prop := ∃ parameters : List Parameter, nodes = parameters.map Parameter.node

theorem AreParameters.snoc {nodes : List Node} (h : AreParameters nodes) (q : Parameter) :
    AreParameters (nodes ++ [q.node]) := by
  obtain ⟨parameters, rfl⟩ := h
  exact ⟨parameters ++ [q], by simp⟩

theorem parameterTurn_shape {nodes : List Node} (h : AreParameters nodes) :
    Answers (parameterTurn rec nodes) (Sum.elim AreParameters AreParameters) := by
  unfold parameterTurn
  refine .after fun _ => .ite (fun _ => ?_) fun _ => ?_
  · exact .after fun r => .pure (h.snoc ⟨r.2, .type .functionArgRest false [], r.1.line⟩)
  · refine .after fun r => .after fun typeLiteral => .after fun _ => ?_
    have hnext := h.snoc ⟨r.2, typeLiteral, r.1.line⟩
    exact .ite (fun _ => .pure hnext) fun _ => .pure hnext

theorem parameterList_shape : Answers (parameterList rec) AreParameters := by
  unfold parameterList
  refine .after fun _ => .ite (fun _ => .pure ⟨[], rfl⟩) fun _ => ?_
  exact .bind (.collect (fun _ h => parameterTurn_shape h) _ ⟨[], rfl⟩) fun _ h => .after fun _ => .pure h

def AreReturns (nodes : List Node) : Prop := ∃ returns : List Literal, nodes = returns.map .literal

theorem returnTypeTurn_shape {nodes : List Node} (h : AreReturns nodes) :
    Answers (returnTypeTurn rec nodes) (Sum.elim AreReturns AreReturns) := by
  obtain ⟨returns, rfl⟩ := h
  unfold returnTypeTurn
  refine .after fun literal => .after fun _ => ?_
  have hnext : AreReturns (returns.map .literal ++ [emitASTNodeLiteral literal]) :=
    ⟨returns ++ [copyLiteral literal], by simp [emitASTNodeLiteral]⟩
  exact .ite (fun _ => .pure hnext) fun _ => .pure hnext

theorem returnTypes_shape : Answers (returnTypes rec) AreReturns := by
  unfold returnTypes
  refine .after fun _ => .ite (fun _ => ?_) fun _ => .pure ⟨[], rfl⟩
  exact .collect (fun _ h => returnTypeTurn_shape h) _ ⟨[], rfl⟩

theorem fnDecl_shape : Answers (fnDecl rec) fun node => ∃ name parameters returns block line,
    node = procedure name parameters returns block line := by
  unfold fnDecl
  refine .bind (declaredName_answers _) fun r hname => ?_
  obtain ⟨name, hname⟩ := hname
  refine .after fun _ => .bind parameterList_shape fun _ hparameters => .bind returnTypes_shape fun _ hreturns => ?_
  obtain ⟨parameters, rfl⟩ := hparameters
  obtain ⟨returns, rfl⟩ := hreturns
  exact .after fun _ => .after fun block => .pure ⟨name, parameters, returns, block, r.1.line, by rw [hname, procedure]⟩

/-! ## Signatures -/

/-- What a declared type is mapped to; a name in place of a type has the type of a name. -/
def declaredIRType : Literal → IRType
  | .type typeOf _ _ => mapLiteralTypeToIR typeOf
  | l => mapLiteralTypeToIR l.kind

/-- The types of the parameters of a procedure. -/
def declaredParameters : Node → List Literal
  | .fnDecl _ (.fnCollection nodes) _ _ _ => nodes.map fun
    | .varDecl _ typeLiteral _ _ => typeLiteral
    | _ => .null
  | _ => []

/-- The return types of a procedure. -/
def declaredReturns : Node → List Literal
  | .fnDecl _ _ (.fnCollection nodes) _ _ => nodes.map fun
    | .literal l => l
    | _ => .null
  | _ => []

/-- The function has the parameters and the return type that are declared. -/
def SignatureMatches (node : Node) (func : IRFunction) : Prop :=
  func.paramTypes = (declaredParameters node).map (fun l => some (declaredIRType l)) ∧
    ∀ l ∈ declaredReturns node, func.returnType = declaredIRType l

variable {name : List Char} {parameters : List Parameter} {returns : List Literal} {block : Node} {line : Nat}

@[simp] theorem declaredParameters_procedure :
    declaredParameters (procedure name parameters returns block line) = parameters.map Parameter.typeLiteral := by
  simp [declaredParameters, procedure, Function.comp_def, Parameter.node]

@[simp] theorem declaredReturns_procedure : declaredReturns (procedure name parameters returns block line) = returns := by
  simp [declaredReturns, procedure, Function.comp_def]

/-- A function collection is neither a compound nor a literal. -/
theorem translateFunction_procedure (gen : IRGenerator) :
    translateFunction gen (procedure name parameters returns block line) =
      match irStrdup name 256 with
      | none => { gen with error := some "Failed to create IR function" }
      | some name => { gen with functions := gen.functions ++ [⟨name, .void, [], ["entry"]⟩] } := by
  simp only [translateFunction, procedure, nameOf, moduleAddFunction, returnTypeOf, paramTypesOf]
  cases irStrdup name 256 <;> rfl

/-- Every function that is made returns nothing and takes nothing. -/
theorem created_default {gen : IRGenerator} {func : IRFunction}
    (h : (translateFunction gen (procedure name parameters returns block line)).functions = gen.functions ++ [func]) :
    func.returnType = .void ∧ func.paramTypes = [] := by
  rw [translateFunction_procedure] at h
  split at h
  · simp at h
  · obtain rfl := List.singleton_inj.mp (List.append_cancel_left h)
    exact ⟨rfl, rfl⟩

/-- A function is made of every procedure whose name is short enough. -/
theorem created (gen : IRGenerator) (h : (name.takeWhile (· != CStrings.nul)).length < 256) :
    ∃ func, (translateFunction gen (procedure name parameters returns block line)).functions =
      gen.functions ++ [func] := by
  rw [translateFunction_procedure, irStrdup, if_neg (Nat.not_le.mpr h)]
  exact ⟨_, rfl⟩

/-- The signature is the declared one exactly when the declared one is the default. -/
theorem signature_matches_iff {p p' : Parser} {node : Node} (h : fnDecl rec p = .ok node p') (gen : IRGenerator)
    {func : IRFunction} (hfunc : (translateFunction gen node).functions = gen.functions ++ [func]) :
    SignatureMatches node func ↔
      declaredParameters node = [] ∧ ∀ l ∈ declaredReturns node, declaredIRType l = .void := by
  obtain ⟨name, parameters, returns, block, line, rfl⟩ := fnDecl_shape p node p' h
  obtain ⟨hreturn, hparams⟩ := created_default hfunc
  rw [SignatureMatches, hreturn, hparams]
  refine and_congr ⟨fun heq => ?_, fun heq => ?_⟩ (forall₂_congr fun l _ => eq_comm)
  · exact List.map_eq_nil_iff.mp heq.symm
  · rw [heq, List.map_nil]

/-- `f(parameters) {}`, behind the keyword. -/
def emptyProcedure (parameters : List Token) : Parser :=
  initParser { tokensOf [] with
    tokens := [⟨.identifier, "f".toList, 1⟩, ⟨.parenLeft, "(".toList, 1⟩] ++ parameters ++
      [⟨.parenRight, ")".toList, 1⟩, ⟨.braceLeft, "\x7b".toList, 1⟩, ⟨.braceRight, "\x7d".toList, 1⟩] }

def emptyGenerator : IRGenerator := ⟨[], none⟩

/-- The function of `f(x: int) {}` takes nothing. -/
theorem parameter_dropped : ¬ ∀ gen p p' node func, fnDecl (recAt neverZero 4) p = .ok node p' →
    (translateFunction gen node).functions = gen.functions ++ [func] → SignatureMatches node func := by
  intro h
  have hx := h emptyGenerator
    (emptyProcedure [⟨.identifier, "x".toList, 1⟩, ⟨.colon, ":".toList, 1⟩, ⟨.integer, "int".toList, 1⟩])
    _ _ ⟨"f".toList, .void, [], ["entry"]⟩ rfl rfl
  cases hx.1

/-- The function of `f() {}` has the signature of the tree that is read. -/
theorem empty_signature :
    SignatureMatches (procedure "f".toList [] [] (.block []) 1) ⟨"f".toList, .void, [], ["entry"]⟩ := by
  have hread : ∃ p', fnDecl (recAt neverZero 4) (emptyProcedure []) =
      .ok (procedure "f".toList [] [] (.block []) 1) p' := ⟨_, rfl⟩
  obtain ⟨p', hread⟩ := hread
  exact (signature_matches_iff hread emptyGenerator rfl).mpr ⟨rfl, List.forall_mem_nil _⟩

end Xvr.Backend.IR
