import SemanticVersions.Grammar.CharClass

/-!
# Patterns

A pattern describes texts, and can capture parts of them.  Captures are
numbered by the order in which they open in the written form.
-/

namespace SemanticVersions.Grammar

inductive Pattern
  /-- Nothing, at the start of the text. -/
  | textStart
  /-- Nothing, at the end of the text. -/
  | textEnd
  /-- One character of a class. -/
  | one (chars : CharClass)
  /-- As many characters of a class as possible. -/
  | many (chars : CharClass)
  /-- As many characters of a class as possible, but at least one. -/
  | several (chars : CharClass)
  /-- One pattern and then another. -/
  | seq (first second : Pattern)
  /-- The first pattern, or else the second. -/
  | either (first second : Pattern)
  /-- A pattern or, if that fails, nothing. -/
  | optional (inner : Pattern)
  /-- A pattern as often as possible. -/
  | repeated (inner : Pattern)
  /-- A pattern in parentheses. -/
  | group (inner : Pattern)
  /-- A pattern whose text is captured. -/
  | capture (inner : Pattern)
deriving DecidableEq, Repr

namespace Pattern

instance : Append Pattern where
  append := seq

instance : OrElse Pattern where
  orElse first second := either first (second ())

def mark (c : Char) : Pattern := one (.one c)

def source : Pattern → Text
  | textStart => ['^']
  | textEnd => ['$']
  | one chars => chars.source
  | many chars => chars.source ++ ['*']
  | several chars => chars.source ++ ['+']
  | seq first second => first.source ++ second.source
  | either first second => first.source ++ '|' :: second.source
  | optional inner => inner.source ++ ['?']
  | repeated inner => inner.source ++ ['*']
  | group inner => "(?:".toList ++ inner.source ++ [')']
  | capture inner => '(' :: (inner.source ++ [')'])

def captures : Pattern → Nat
  | textStart | textEnd | one _ | many _ | several _ => 0
  | seq first second => first.captures + second.captures
  | either first second => first.captures + second.captures
  | optional inner => inner.captures
  | repeated inner => inner.captures
  | group inner => inner.captures
  | capture inner => inner.captures + 1

end Pattern

end SemanticVersions.Grammar
