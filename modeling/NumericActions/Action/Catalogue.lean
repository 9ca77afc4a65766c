import NumericActions.Action.Basic
import NumericActions.Combinatorics.Stirling
import NumericActions.Primes.Factorization
import NumericActions.Reduction.Basic
import NumericActions.Scalar.Basic

/-!
# The catalogue of actions

All actions that come with the library, under their short names and in the order in
which they are registered. A function of integers narrows its arguments first, from left
to right.

* `catalogue`: the entries.
* `CatalogueEntry.action?`: the action of an entry in a scope.
-/

namespace NumericActions

structure CatalogueEntry where
  shortName : String
  description : String
  minimalArguments : Nat
  method : Method

namespace CatalogueEntry

/-- The action of an entry in a scope, which must consist of segments. -/
def action? (scope : String) (entry : CatalogueEntry) : Except (List FieldError) Action :=
  Action.of? entry.method (.text (qualify scope entry.shortName))
    (.int entry.minimalArguments) (.text entry.description)

end CatalogueEntry

/-! ## Elementwise actions -/

def FloatFunction.entry (library : Elementary) (f : FloatFunction) : CatalogueEntry :=
  ⟨f.name, f.name ++ "(x) for each value", 1,
    .elementwise fun x => .ok (.float (f.apply library x.toBinary64))⟩

def ofIntegers (f : Int → Except Fault Value) : Method :=
  .elementwise fun x => do f (← x.toInt64)

def elementwiseEntries (library : Elementary) : List CatalogueEntry :=
  FloatFunction.all.map (FloatFunction.entry library) ++
  [⟨"round", "round half up to an integer", 1,
      .elementwise fun x => return .number (← roundHalfUp x.toBinary64)⟩,
   ⟨"isprime", "primality test of int(x)", 1,
      ofIntegers fun n => return .bool (← isPrime n)⟩,
   ⟨"nextprime", "smallest prime >= int(x)", 1,
      ofIntegers fun n => return .int (← nextPrime n)⟩,
   ⟨"factorial", "int(x)! in the 64-bit domain", 1,
      ofIntegers fun n => return .int (← factorial n)⟩,
   ⟨"primefactors", "prime factors of int(x) with multiplicity", 1,
      ofIntegers fun n => do
        return .list ((← (← primeFactors n).mapM fun p : Nat => Strict.ofInt p).map .float)⟩]

/-! ## Windowed actions -/

/-- The signature of a function of two numbers, which is also given the name of the
action behind them. -/
def pairSignature (name first second : String) : Signature := ⟨name, [first, second, "action"]⟩

/-- A function of two numbers as one of a window, which must have two. -/
def ofPair (signature : Signature) (f : Number → Number → Except Fault Value) :
    List Number → Except Fault Value
  | [a, b] => f a b
  | window => .error (.argumentCount signature (window.length + 1))

def ofIntegerPairs (name : String) (f : Int → Int → Except Fault Int) : Method :=
  .windowed .pairs <| ofPair (pairSignature name "n" "k") fun a b => do
    let n ← a.toInt64
    let k ← b.toInt64
    return .int (← f n k)

def windowedEntries : List CatalogueEntry :=
  [⟨"hypot", "sqrt(a^2 + b^2) for each pair", 2,
      .windowed .pairs <| ofPair (pairSignature "_hypot" "a" "b") fun a b =>
        .ok (.float (Binary64.hypot a.toBinary64 b.toBinary64))⟩,
   ⟨"stirling", "Stirling number of the second kind S(n, k) for each pair", 2,
      ofIntegerPairs "_stirling" stirling⟩,
   ⟨"binomial", "binomial coefficient C(n, k) for each pair", 2,
      ofIntegerPairs "_binomial" binomial⟩]

/-! ## Aggregate actions -/

def ofReduction (f : List Number → Except Fault Binary64) : Method :=
  .aggregate fun values => return .float (← f values)

def ofPosition (f : List Number → Except Fault Nat) : Method :=
  .aggregate fun values => return .int (← f values)

def aggregateEntries (library : Elementary) : List CatalogueEntry :=
  [⟨"sum", "exactly rounded sum", 1, ofReduction total⟩,
   ⟨"average", "arithmetic mean", 1, ofReduction average⟩,
   ⟨"min", "smallest value", 1, ofReduction minimum⟩,
   ⟨"max", "largest value", 1, ofReduction maximum⟩,
   ⟨"harmonicmean", "n / sum(1/x)", 1, ofReduction harmonicMean⟩,
   ⟨"geometricmean", "exp(mean(ln x))", 1, ofReduction (geometricMean library)⟩,
   ⟨"maxindex", "zero-based position of the first maximum", 1, ofPosition maxIndex⟩,
   ⟨"minindex", "zero-based position of the first minimum", 1, ofPosition minIndex⟩]

/-! ## Actions with parameters -/

/-- The last of the three parameters is data too. -/
def sigmoidLayout : ParameterLayout := ⟨3, 2⟩

def powerLayout : ParameterLayout := ⟨1, 1⟩

def sigmoidSignature : Signature := ⟨"sigmoid", ["alpha", "beta", "gamma", "t"]⟩

def powerSignature : Signature := ⟨"power", ["exponent", "base"]⟩

def sigmoidOf (library : Elementary) : List Binary64 → Except Fault Value
  | [alpha, beta, gamma, t] => .ok (.float (sigmoid library alpha beta gamma t))
  | values => .error (.argumentCount sigmoidSignature values.length)

def powerOf (library : Elementary) : List Binary64 → Except Fault Value
  | [exponent, base] => .ok (.float (power library exponent base))
  | values => .error (.argumentCount powerSignature values.length)

def parameterizedEntries (library : Elementary) : List CatalogueEntry :=
  [⟨"sigmoid", "alpha / (beta + exp(-gamma * t)) for each t", 3,
      .parameterized sigmoidLayout (sigmoidOf library)⟩,
   ⟨"pow", "t ** exponent for each t", 2,
      .parameterized powerLayout (powerOf library)⟩]

/-! ## The catalogue -/

def catalogue (library : Elementary) : List CatalogueEntry :=
  elementwiseEntries library ++ windowedEntries ++ aggregateEntries library ++
    parameterizedEntries library

theorem length_catalogue (library : Elementary) : (catalogue library).length = 37 := rfl

end NumericActions
