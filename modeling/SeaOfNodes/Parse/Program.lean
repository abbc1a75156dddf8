import SeaOfNodes.Parse.Statement

/-!
Programs. The text is read three times: first the types, then the signatures of functions and the
constants, so that a body can use everything that the program declares, and last the bodies.
-/
namespace SeaOfNodes

structure FunctionDeclaration where
  name : Token
  entry : NodeId
  params : List (Token × Ty)
  result : Ty
  /-- The place of the body. -/
  body : Lexer

structure Construction where
  graph : Graph
  exit : NodeId
  functions : Nat

namespace ParseM

/-! ### Types -/

/-- One field of a struct, or the brace behind the last one. -/
def fieldTurn (fields : List (Token × Ty)) :
    ParseM (List (Token × Ty) ⊕ List (Token × Ty)) := do
  if (← accept .closeBrace).isSome then return .inr fields
  let field ← identifier
  let ty ← type
  let _ ← expect .semicolon
  if fields.any fun other => other.1.text == field.text then
    fail (.redeclared field.text) field.span
  return .inl (fields ++ [(field, ty)])

def structDeclaration : ParseM Unit := do
  let name ← identifier
  let _ ← expect (.keyword .struct)
  let _ ← expect .openBrace
  let fields ← loop fieldTurn []
  let ty := .struct name.text (fields.map fun field => field.1.text) (fields.map Prod.snd)
  declare name (.type (← bounded ty name.span))

/-- What a program may declare. -/
def itemNames : String := "`func`, `type` or `const`"

/-- Reads the types and skips everything else. -/
def declareTypes : ParseM Unit :=
  loop (fun () => do
    match ← next? with
    | none => return .inr ()
    | some token =>
      match token.kind with
      | .keyword .type => structDeclaration
      | .keyword .func => skipFunction
      | .keyword .const => skipStatement
      | _ => unexpected token itemNames
      return .inl ()) ()

/-! ### Signatures and constants -/

def parameterTurn (params : List (Token × Ty)) :
    ParseM (List (Token × Ty) ⊕ List (Token × Ty)) := do
  let name ← identifier
  let ty ← type
  if params.any fun other => other.1.text == name.text then
    fail (.redeclared name.text) name.span
  let params := params ++ [(name, ty)]
  if (← accept .comma).isSome then return .inl params else return .inr params

/-- The signature of a function. Its body is skipped. -/
def functionSignature : ParseM FunctionDeclaration := do
  let name ← identifier
  let _ ← expect .openParen
  let params ← if ← isNext .closeParen then pure [] else loop parameterTurn []
  let _ ← expect .closeParen
  let result ← if ← isNext .openBrace then pure .void else type
  setSpan name.span
  let entry ← make (.function name.text (.function (params.map Prod.snd) result .bottom))
  declare name (.value entry)
  let body := (← get).lexer
  let first ← peek "function body"
  if first.kind ≠ .openBrace then unexpected first "`\x7b`"
  skipGroup
  return { name, entry, params, result, body }

def globalConstant : ParseM Unit := do
  let name ← identifier
  let value ← constantValue
  let ty ← typeOf value
  if !ty.isConstant && !ty.isError then
    setSpan name.span
    let error ← report ("initializer of `" ++ name.text ++ "` is not a constant")
    declare name (.value error)
  else declare name (.value value)

/-- Reads one declaration. A type was read before, and is skipped. -/
def declarationTurn (functions : List FunctionDeclaration) :
    ParseM (List FunctionDeclaration ⊕ List FunctionDeclaration) := do
  match ← next? with
  | none => return .inr functions
  | some token =>
    match token.kind with
    | .keyword .type =>
      let _ ← identifier
      let _ ← expect (.keyword .struct)
      skipGroup
      return .inl functions
    | .keyword .func => return .inl (functions ++ [← functionSignature])
    | .keyword .const =>
      globalConstant
      return .inl functions
    | _ => unexpected token itemNames

/-- Reads the signatures of all functions and the constants. -/
def declareFunctions : ParseM (List FunctionDeclaration) := loop declarationTurn []

def findMain : ParseM NodeId := do
  match (← scope).lookup "main" with
  | some (.value entry) =>
    match ← typeOf entry with
    | .function [] .void _ => return entry
    | _ => fail .invalidMain (← endSpan)
  | _ => fail .missingMain (← endSpan)

/-! ### Bodies -/

/-- The name behind the opening parentheses that come next, if there is one. -/
def nameAhead : ParseM (Option String) :=
  loop (fun ahead => do
    match ← lex (Lexer.peekNth ahead) with
    | none => return .inr none
    | some token =>
      match token.kind with
      | .openParen => return .inl (ahead + 1)
      | .identifier => return .inr (some token.text)
      | _ => return .inr none) 0

/-- The names behind `&` in the block that comes next. These locals keep their stack slots. -/
def addressTaken : ParseM (List String) :=
  loop (fun (state : Nat × List String) => do
    let (depth, names) := state
    match ← next? with
    | none => return .inr names
    | some token =>
      match token.kind with
      | .openBrace => return .inl (depth + 1, names)
      | .closeBrace => if depth ≤ 1 then return .inr names else return .inl (depth - 1, names)
      | .ampersand => return .inl (depth, names ++ (← nameAhead).toList)
      | _ => return .inl (depth, names)) (0, [])

def enterFunction (d : FunctionDeclaration) : ParseM Unit := do
  modify fun p => { p with lexer := d.body }
  let names ← addressTaken
  modify fun p => { p with
    lexer := d.body
    addressTaken := names
    body := { span := d.name.span, result := d.result, returns := [] }
    loops := []
    defers := []
    scope := p.scope.push }
  setCursor ⟨d.entry, d.entry⟩

/-- Binds the parameters from `index` on. -/
def bindParameters (entry : NodeId) (index : Nat) : List (Token × Ty) → ParseM Unit
  | [] => return
  | (name, ty) :: params => do
    setSpan name.span
    let value ← make (.parameter entry index)
    bindLocal name ty value
    bindParameters entry (index + 1) params

/-- The end of a body is a return if the function has no result, and may not be reached if it has
one. -/
def endBody (d : FunctionDeclaration) : ParseM Unit := do
  if ← isDead then return
  if d.result.isVoid then recordReturn none
  else fail (.missingReturn d.name.text d.result.name) d.name.span

/-- Joins the points where a function returns. Gives its value, if it has one. -/
def joinReturns (points : List (Option NodeId × Cursor)) : ParseM (Option NodeId) := do
  let region ← make (.region (points.map fun point => point.2.control))
  let memory ← make (.phi region (points.map fun point => point.2.memory) .memory)
  let value ← match points.mapM Prod.fst with
    | some values => some <$> make (.phi region values .value)
    | none => pure none
  setCursor ⟨region, memory⟩
  return value

/-- Adds the return of a function, and hangs it off the function's entry. -/
def addReturn (entry : NodeId) (span : Span) (value : Option NodeId) : ParseM Unit := do
  setSpan span
  let node ← make (.return_ value)
  build (.edit fun g => g.appendInput entry node)

/-- Adds one return for all the points where a function returns. -/
def finishFunction (entry : NodeId) : ParseM Unit := do
  let body := (← get).body
  match body.returns with
  | [] => return
  | [(value, c)] =>
    setCursor c
    addReturn entry body.span value
  | points =>
    let value ← joinReturns points
    addReturn entry body.span value

/-- Reads the body of a function. A statement inside another one has fewer tokens left, and a
deferred statement is read in statements that are not deferred themselves or have more tokens
left. -/
def buildFunctionWith (body : Nat → ParseM Unit) (d : FunctionDeclaration) : ParseM Unit := do
  enterFunction d
  bindParameters d.entry 0 d.params
  body (2 * (← get).size + 2)
  endBody d
  setScope (← scope).pop
  finishFunction d.entry

def buildFunction (d : FunctionDeclaration) : ParseM Unit :=
  buildFunctionWith (fun fuel => block (statementNested fuel)) d

def buildFunctions : List FunctionDeclaration → ParseM Unit
  | [] => return
  | d :: ds => do
    buildFunction d
    buildFunctions ds

/-! ### Programs -/

/-- Calls `main` from the start and exits with status 0. -/
def finish (main : NodeId) : ParseM NodeId := do
  let start := (← get).builder.start
  setCursor ⟨start, start⟩
  let call ← make (.call main [])
  setCursor ⟨call, call⟩
  let status ← make (.constant (.intOf .int 0))
  make (.exit status)

/-- Reads everything but the bodies. Gives the functions and the one that the program starts with. -/
def declarations : ParseM (List FunctionDeclaration × NodeId) := do
  let start := (← get).lexer
  declareTypes
  modify fun p => { p with lexer := start }
  let functions ← declareFunctions
  return (functions, ← findMain)

/-- Reads a program to its end. Gives the node that ends it and the number of functions. -/
def programWith (bodies : List FunctionDeclaration → ParseM Unit) : ParseM (NodeId × Nat) := do
  let (functions, main) ← declarations
  bodies functions
  return (← finish main, functions.length)

def program : ParseM (NodeId × Nat) := programWith buildFunctions

end ParseM

def Parser.ofText (text : String) (promote : Bool) : Parser :=
  { lexer := .ofString text, size := text.utf8ByteSize, promote }

/-- The graph that is there when a program was read. -/
def constructWith (program : ParseM (NodeId × Nat)) (text : String) (promote : Bool) :
    Except Stop Construction :=
  match program (.ofText text promote) with
  | .ok (exit, functions) p => .ok { graph := p.builder.graph, exit, functions }
  | .error stop _ => .error stop

/-- Builds the graph of a program. With `promote`, locals whose address is never taken are held as
values. -/
def construct (text : String) (promote : Bool) : Except Stop Construction :=
  constructWith ParseM.program text promote

end SeaOfNodes
