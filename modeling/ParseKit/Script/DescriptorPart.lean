import ParseKit.Script.Session
/-!
Descriptors: a name and a list of numbers, as in `point(1.5, -2)`. Blanks may stand in front and
behind every token. Their grammar is a program of scripts, whose parts can be applied by themselves.
-/
namespace ParseKit.Script

def lexemeBlock : List Stmt :=
  [.yield (.var "p") (some "value"), .yield (.atom .spaces) none, .ret (.var "value")]

def identifierBlock : List Stmt :=
  [.yield (.atom (.ofClass .letter)) (some "first"),
    .yield (.unary .manyText (.atom (.ofClass .word))) (some "rest"),
    .ret (.call (.builtin .add) [.var "first", .var "rest"] [])]

def lexeme (p : Expr) : Expr := .call (.var "lexeme") [p] []

def symbol (mark : Text) : Expr := .call (.var "symbol") [.lit (.str mark)] []

def descriptorBlock : List Stmt :=
  [.yield (.atom .spaces) none,
    .yield (lexeme (.run identifierBlock)) (some "name"),
    .yield (symbol ['(']) none,
    .yield (.binary .sepBy (lexeme (.atom .num)) (symbol [','])) (some "args"),
    .yield (symbol [')']) none,
    .ret (.tuple [.var "name", .var "args"])]

def descriptors : Program where
  definitions := []
  bindings :=
    [("lexeme", .blockFn ["p"] lexemeBlock),
      ("symbol", .lambda ["c"] (lexeme (.unary .char (.var "c")))),
      ("descriptor", .run descriptorBlock)]

inductive DescriptorPart where
  | identifier
  | descriptor
  | symbol (mark : Text)
  | lexeme (inner : Expr)

def DescriptorPart.eval (limit : Nat) (env grammar : Env) : DescriptorPart → Run Value
  | identifier => Script.eval limit grammar (.run identifierBlock)
  | descriptor => Script.eval limit grammar (.var "descriptor")
  | symbol mark => Script.eval limit grammar (Script.symbol mark)
  | lexeme inner => do
    let p ← Script.eval limit env inner
    Script.eval limit (grammar.set "p" p) (Script.lexeme (.var "p"))

def Program.parsePart (limit : Nat) (p : Program) (part : DescriptorPart) (text : Text) :
    Answer Value :=
  Run.answer do
    let env ← p.prepare limit
    let grammar ← descriptors.prepare limit
    checked (← apply limit (← part.eval limit env grammar) (.str text))

def descriptorParser (limit : Nat) : Run Value := do
  let grammar ← descriptors.prepare limit
  eval limit grammar (.var "descriptor")

def descriptorLimit (text : Text) : Nat := text.length + 8

def descriptorWord : Text := "descriptor".toList

def parsedBy (limit : Nat) (text : Text) (p : Value) : Run (Except (Refusal Text) Value) := do
  let result ← whole limit p descriptorWord (.str text)
  return result.mapError (Refusal.map Value.plain)

def parseDescriptor (text : Text) : Answer (Except (Refusal Text) Value) :=
  let limit := descriptorLimit text
  Run.answer do parsedBy limit text (← descriptorParser limit)

end ParseKit.Script
