/-!
# The bundled library

The modules that come with the program: truth values, general combinators,
pairs and natural numbers in Church's encoding.
-/

namespace CallByNeed.Files

def booleansText : String :=
  "# Church booleans\n" ++
  "\n" ++
  "True = (t, f) => t;\n" ++
  "False = (t, f) => f;\n" ++
  "\n" ++
  "If = (c, t, e) => c t e;\n" ++
  "Not = b => b False True;\n" ++
  "And = (a, b) => a b False;\n" ++
  "Or = (a, b) => a True b;\n"

/-- Combinators, a fixed point and a term that diverges. -/
def generalText : String :=
  "# General-purpose combinators\n" ++
  "\n" ++
  "I = x => x;\n" ++
  "K = (x, y) => x;\n" ++
  "S = (f, g, x) => f x (g x);\n" ++
  "Compose = (f, g) => x => f (g x);\n" ++
  "Flip = f => (a, b) => f b a;\n" ++
  "\n" ++
  "# Fixed point. This is the strict Y combinator: it only works because\n" ++
  "# arguments are not evaluated before they are needed.\n" ++
  "Y = f => (x => f (x x)) (x => f (x x));\n" ++
  "\n" ++
  "# Diverges when forced.\n" ++
  "Loop = (x => x x) x => x x;\n"

def numbersText : String :=
  "# Natural numbers\n" ++
  "import \x7b Cons, Fst, Snd \x7d from \"./pairs\";\n" ++
  "import \x7b K, Y \x7d from \"./general\";\n" ++
  "import \x7b If, True, False \x7d from \"./booleans\";\n" ++
  "\n" ++
  "Zero = (s, z) => z;\n" ++
  "Suc = n => (s, z) => s (n s z);\n" ++
  "Zero? = n => n (K False) True;\n" ++
  "\n" ++
  "Pred = n => Fst (n (prev => Cons (Snd prev) (Suc (Snd prev)))\n" ++
  "                   (Cons Zero Zero));\n" ++
  "\n" ++
  "Sum = (m, n) => m Suc n;\n" ++
  "Prod = (m, n) => m (Sum n) Zero;\n" ++
  "Pow = (b, e) => e (Prod b) (Suc Zero);\n" ++
  "\n" ++
  "Fact = Y fact => n => If (Zero? n)\n" ++
  "                         (Suc Zero)\n" ++
  "                         (Prod n (fact (Pred n)));\n"

def pairsText : String :=
  "# Pairs\n" ++
  "import \x7b True, False \x7d from \"./booleans\";\n" ++
  "\n" ++
  "Cons = (a, b) => s => s a b;\n" ++
  "Fst = p => p True;\n" ++
  "Snd = p => p False;\n"

def bundle : List (String × String) :=
  [("booleans.lc", booleansText), ("general.lc", generalText),
   ("numbers.lc", numbersText), ("pairs.lc", pairsText)]

end CallByNeed.Files
