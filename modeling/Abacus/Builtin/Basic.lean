/-!
# Builtin/Basic — the functions that the language has

There are 47 of them, and a program cannot add any. `signature` gives each one its name, the number of
its arguments, and whether a call on literals may be replaced by its value ahead of time. `all` lists
them in the order in which they are shown.
-/

namespace Abacus

/-- A function of the language. -/
inductive Builtin where
  | plus | subtract | times | divide | modulo
  | abs | power | floor | ceiling | round
  | equal | unequal | less | lessEqual | greater | greaterEqual | not
  | bitAnd | bitOr | bitXor | bitNot | bitShiftLeft | bitShiftRight
  | factorial | isPrime
  | define | sum | product | random
  | sin | cos | tan | asin | acos | atan | atan2 | sinh | cosh | tanh
  | exp | logE | log2 | log10 | log | sqrt | cbrt | hypot
deriving DecidableEq

/-- What a caller has to know of a function. -/
structure Signature where
  /-- The name that calls it. -/
  name : String
  /-- The number of its arguments. -/
  arity : Nat
  /-- Whether a call on literals may be replaced by its value: the exact functions, which neither
  read nor change anything. -/
  folds : Bool

namespace Builtin

/-- The signature of each function. -/
def signature : Builtin → Signature
  | .plus => ⟨"Plus", 2, true⟩
  | .subtract => ⟨"Subtract", 2, true⟩
  | .times => ⟨"Times", 2, true⟩
  | .divide => ⟨"Divide", 2, true⟩
  | .modulo => ⟨"Mod", 2, true⟩
  | .abs => ⟨"abs", 1, true⟩
  | .power => ⟨"power", 2, true⟩
  | .floor => ⟨"floor", 1, true⟩
  | .ceiling => ⟨"ceiling", 1, true⟩
  | .round => ⟨"round", 1, true⟩
  | .equal => ⟨"Equal", 2, true⟩
  | .unequal => ⟨"Unequal", 2, true⟩
  | .less => ⟨"Less", 2, true⟩
  | .lessEqual => ⟨"LessEqual", 2, true⟩
  | .greater => ⟨"Greater", 2, true⟩
  | .greaterEqual => ⟨"GreaterEqual", 2, true⟩
  | .not => ⟨"not", 1, true⟩
  | .bitAnd => ⟨"BitAnd", 2, true⟩
  | .bitOr => ⟨"BitOr", 2, true⟩
  | .bitXor => ⟨"BitXor", 2, true⟩
  | .bitNot => ⟨"BitNot", 1, true⟩
  | .bitShiftLeft => ⟨"BitShiftLeft", 2, true⟩
  | .bitShiftRight => ⟨"BitShiftRight", 2, true⟩
  | .factorial => ⟨"factorial", 1, true⟩
  | .isPrime => ⟨"is_prime", 1, true⟩
  | .define => ⟨"define", 2, false⟩
  | .sum => ⟨"sum", 3, false⟩
  | .product => ⟨"product", 3, false⟩
  | .random => ⟨"random", 0, false⟩
  | .sin => ⟨"sin", 1, false⟩
  | .cos => ⟨"cos", 1, false⟩
  | .tan => ⟨"tan", 1, false⟩
  | .asin => ⟨"asin", 1, false⟩
  | .acos => ⟨"acos", 1, false⟩
  | .atan => ⟨"atan", 1, false⟩
  | .atan2 => ⟨"atan2", 2, false⟩
  | .sinh => ⟨"sinh", 1, false⟩
  | .cosh => ⟨"cosh", 1, false⟩
  | .tanh => ⟨"tanh", 1, false⟩
  | .exp => ⟨"exp", 1, false⟩
  | .logE => ⟨"logE", 1, false⟩
  | .log2 => ⟨"log2", 1, false⟩
  | .log10 => ⟨"log10", 1, false⟩
  | .log => ⟨"log", 2, false⟩
  | .sqrt => ⟨"sqrt", 1, false⟩
  | .cbrt => ⟨"cbrt", 1, false⟩
  | .hypot => ⟨"hypot", 2, false⟩

/-- The name that calls a function. -/
def name (f : Builtin) : String :=
  f.signature.name

/-- The number of arguments of a function. -/
def arity (f : Builtin) : Nat :=
  f.signature.arity

/-- Whether a call on literals may be replaced by its value. -/
def folds (f : Builtin) : Bool :=
  f.signature.folds

/-- Every function, in the order in which they are shown. -/
def all : List Builtin :=
  [.plus, .subtract, .times, .divide, .modulo, .abs, .power, .floor, .ceiling, .round,
    .equal, .unequal, .less, .lessEqual, .greater, .greaterEqual, .not,
    .bitAnd, .bitOr, .bitXor, .bitNot, .bitShiftLeft, .bitShiftRight, .factorial, .isPrime,
    .define, .sum, .product, .random,
    .sin, .cos, .tan, .asin, .acos, .atan, .atan2, .sinh, .cosh, .tanh,
    .exp, .logE, .log2, .log10, .log, .sqrt, .cbrt, .hypot]

/-- The function of a given name. -/
def ofName? (s : String) : Option Builtin :=
  all.find? fun f => f.name == s

theorem mem_all (f : Builtin) : f ∈ all := by
  cases f <;> decide

end Builtin

end Abacus
