import SemanticVersions.Error
import SemanticVersions.Version.Order

/-!
# Comparison operators

An operator compares two versions, by precedence or by their canonical texts.
-/

namespace SemanticVersions

/-- A comparison of versions. -/
inductive Operator
  | equal
  | notEqual
  | greater
  | greaterEqual
  | less
  | lessEqual
  /-- Equality of canonical texts. -/
  | identical
  /-- Difference of canonical texts. -/
  | different
deriving DecidableEq, Repr

namespace Operator

/-- The text of an operator; equality is written as nothing. -/
def text : Operator → Text
  | equal => []
  | notEqual => ['!', '=']
  | greater => ['>']
  | greaterEqual => ['>', '=']
  | less => ['<']
  | lessEqual => ['<', '=']
  | identical => ['=', '=', '=']
  | different => ['!', '=', '=']

/-- Reads an operator; equality has three spellings. -/
def read (text : Text) : Except Error Operator :=
  match text with
  | [] => .ok equal
  | ['='] => .ok equal
  | ['=', '='] => .ok equal
  | ['!', '='] => .ok notEqual
  | ['>'] => .ok greater
  | ['>', '='] => .ok greaterEqual
  | ['<'] => .ok less
  | ['<', '='] => .ok lessEqual
  | ['=', '=', '='] => .ok identical
  | ['!', '=', '='] => .ok different
  | _ => .error (.invalidOperator text)

def isLower : Operator → Bool
  | greater | greaterEqual => true
  | _ => false

def isUpper : Operator → Bool
  | less | lessEqual => true
  | _ => false

/-- Whether an operator is a bound that holds of the bounding version itself. -/
def isInclusive : Operator → Bool
  | greaterEqual | lessEqual => true
  | _ => false

/-- Whether the first version stands in the given relation to the second. -/
def holds (operator : Operator) (a b : Version) : Bool :=
  match operator with
  | equal => (compare a b).isEq
  | notEqual => (compare a b).isNe
  | greater => (compare a b).isGT
  | greaterEqual => (compare a b).isGE
  | less => (compare a b).isLT
  | lessEqual => (compare a b).isLE
  | identical => a.text == b.text
  | different => a.text != b.text

/-- An operator is read back from its text. -/
theorem read_text (operator : Operator) : read operator.text = .ok operator := by
  cases operator <;> rfl

end Operator

/-- Splits a text behind the comparison sign at its head: `<`, `>`, `<=`, `>=`,
`=` or nothing. -/
def spanSign : Text → Text × Text
  | '<' :: '=' :: rest => (['<', '='], rest)
  | '>' :: '=' :: rest => (['>', '='], rest)
  | '<' :: rest => (['<'], rest)
  | '>' :: rest => (['>'], rest)
  | '=' :: rest => (['='], rest)
  | rest => ([], rest)

/-- The sign and the rest make up the text. -/
theorem spanSign_append (text : Text) : (spanSign text).1 ++ (spanSign text).2 = text := by
  unfold spanSign
  split <;> rfl

end SemanticVersions
