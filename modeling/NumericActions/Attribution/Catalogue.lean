import NumericActions.Action.Catalogue
import NumericActions.Attribution.Functions
import NumericActions.Attribution.Grouping

/-!
# The catalogue with names

The functions of the catalogue as they are given the name of the action they run for, together
with the numbers that they are called with. Functions of real numbers are given no name.

* `Attributed.Method`: a way of grouping numbers with a function that may be given a name.
* `Attributed.catalogue`: the entries, in the order of the catalogue.
* `Attributed.Entry.execute`: the execution of an entry under a name.
-/

namespace NumericActions.Attributed

/-! ## Methods -/

/-- A way of grouping numbers with a function of a name and a group. The functions with
parameters are given no name. -/
inductive Method where
  | elementwise (f : Option String → Number → Except Report Value)
  | windowed (window : Window) (f : Option String → List Number → Except Report Value)
  | aggregate (f : Option String → List Number → Except Report Value)
  | parameterized (layout : ParameterLayout) (f : List Binary64 → Except Report Value)

def Method.evaluate (action : Option String) : Method → List Value → Except Report (List Value)
  | .elementwise f, arguments => Attributed.elementwise action (f action) arguments
  | .windowed window f, arguments => Attributed.windowed action window (f action) arguments
  | .aggregate f, arguments => do
    return [← Attributed.aggregate action (f action) arguments]
  | .parameterized layout f, arguments =>
    Attributed.parameterized action layout
      (fun parameters value => f ((parameters ++ [value]).map Number.toBinary64)) arguments

structure Entry where
  shortName : String
  minimalArguments : Nat
  method : Method

/-! ## Elementwise actions -/

/-- A function of a real number. -/
def ofReal (f : Binary64 → Except Fault Value) : Method :=
  .elementwise fun _ x => unnamed (f x.toBinary64)

def ofIntegers (f : Option String → Int → Except Report Value) : Method :=
  .elementwise fun action x => do f action (← toInt64 action x)

def elementwiseEntries (library : Elementary) : List Entry :=
  FloatFunction.all.map (fun f => ⟨f.name, 1, ofReal fun x => .ok (.float (f.apply library x))⟩) ++
  [⟨"round", 1, ofReal fun x => return .number (← roundHalfUp x)⟩,
   ⟨"isprime", 1, ofIntegers fun action n => return .bool (← isPrime action n)⟩,
   ⟨"nextprime", 1, ofIntegers fun action n => return .int (← nextPrime action n)⟩,
   ⟨"factorial", 1, ofIntegers fun action n => return .int (← factorial action n)⟩,
   ⟨"primefactors", 1, ofIntegers fun action n => do
      let factors ← primeFactors action n
      return .list ((← factors.mapM fun p : Nat => unnamed (Strict.ofInt p)).map .float)⟩]

/-! ## Windowed actions -/

/-- A function of two numbers and a name as one of a window, which must have two. -/
def ofPair (signature : Signature) (f : Option String → Number → Number → Except Report Value)
    (action : Option String) : List Number → Except Report Value
  | [a, b] => f action a b
  | window => unnamed (.error (.argumentCount signature (window.length + 1)))

def ofIntegerPairs (name : String) (f : Option String → Int → Int → Except Report Int) : Method :=
  .windowed .pairs <| ofPair (pairSignature name "n" "k") fun action a b => do
    let n ← toInt64 action a
    let k ← toInt64 action b
    return .int (← f action n k)

def windowedEntries : List Entry :=
  [⟨"hypot", 2, .windowed .pairs <| ofPair (pairSignature "_hypot" "a" "b") fun _ a b =>
      .ok (.float (Binary64.hypot a.toBinary64 b.toBinary64))⟩,
   ⟨"stirling", 2, ofIntegerPairs "_stirling" stirling⟩,
   ⟨"binomial", 2, ofIntegerPairs "_binomial" binomial⟩]

/-! ## Aggregate actions -/

def ofReduction (f : Option String → List Number → Except Report Binary64) : Method :=
  .aggregate fun action values => return .float (← f action values)

def ofPosition (f : Option String → List Number → Except Report Nat) : Method :=
  .aggregate fun action values => return .int (← f action values)

/-- The total is the one reduction that is given no name. -/
def aggregateEntries (library : Elementary) : List Entry :=
  [⟨"sum", 1, ofReduction fun _ values => unnamed (total values)⟩,
   ⟨"average", 1, ofReduction average⟩,
   ⟨"min", 1, ofReduction fun action => extreme action fun a b => a.lt b⟩,
   ⟨"max", 1, ofReduction fun action => extreme action fun a b => b.lt a⟩,
   ⟨"harmonicmean", 1, ofReduction harmonicMean⟩,
   ⟨"geometricmean", 1, ofReduction fun action => geometricMean action library⟩,
   ⟨"maxindex", 1, ofPosition fun action => extremeIndex action fun a b => b.lt a⟩,
   ⟨"minindex", 1, ofPosition fun action => extremeIndex action fun a b => a.lt b⟩]

/-! ## Actions with parameters -/

def parameterizedEntries (library : Elementary) : List Entry :=
  [⟨"sigmoid", 3, .parameterized sigmoidLayout fun values => unnamed (sigmoidOf library values)⟩,
   ⟨"pow", 2, .parameterized powerLayout fun values => unnamed (powerOf library values)⟩]

/-! ## The catalogue -/

def catalogue (library : Elementary) : List Entry :=
  elementwiseEntries library ++ windowedEntries ++ aggregateEntries library ++
    parameterizedEntries library

/-! ## Execution -/

/-- The results on a list of arguments, which must not be too short, for an action. -/
def Entry.results (entry : Entry) (action : Option String) (arguments : List Value) :
    Except Report (List Value) :=
  if arguments.length < entry.minimalArguments then
    raise action (.tooFewArguments entry.minimalArguments arguments.length)
  else entry.method.evaluate action arguments

/-- The outcome of an execution under a name, and the sink behind it. -/
def Entry.execute (entry : Entry) (name : String) (_parallel : Bool)
    (arguments sink : List Value) : Except Report Unit × List Value :=
  match entry.results (some name) arguments with
  | .ok results => (.ok (), sink ++ results)
  | .error report => (.error report, sink)

end NumericActions.Attributed
