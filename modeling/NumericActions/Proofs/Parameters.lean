import NumericActions.Proofs.GroupingFaults
import NumericActions.Proofs.Scopes

/-!
# Parameters and data

Parameters are taken from the front of the terms as they are, but the data are taken from the
numbers of all terms, without those that are skipped. As every parameter is a number, it is one
number among these, so that both counts count the same things.

* `parameterized_of_first`, `parameterized_of_numbers`: a first parameter that is no number, and
  parameters that are numbers.
* `ParametersDecide`, `decides_parameterized`: what a function behind parameters comes to.
* `parameterized_eq_ok_iff`: the terms on which it has results.
* `Action.execute_parameterized`: every function behind parameters, and the two actions of a
  registry that have parameters.
-/

namespace NumericActions

/-! ## Functions behind parameters -/

/-- What a function comes to behind so many parameters, when so many numbers are skipped. The
cases exclude each other, and one of them applies. -/
structure ParametersDecide {α : Type} (count skip : Nat)
    (f : List Number → Number → Except Fault α) (terms : List Value)
    (outcome : Except Fault (List α)) : Prop where
  /-- The first parameter that is no number decides, whatever the function is and whatever
  follows. -/
  parameter : ∀ (before : List Number) v after, terms = before.map .number ++ v :: after →
    before.length < count → v.number? = none →
      outcome = .error (.invalidParameter before.length v)
  /-- Behind numbers the data decide: these numbers and the leaves of the other terms, without
  the skipped ones. -/
  data : ∀ parameters : List Number, terms.take count = parameters.map .number →
    skip ≤ advanceLimit →
      FirstProblemDecides (f parameters)
        ((parameters ++ (Value.leavesOfAll (terms.drop count)).numbers).drop skip)
        (Value.leavesOfAll (terms.drop count)).foreign outcome
  /-- So many numbers cannot be skipped, however few there are. -/
  uncountable : ∀ parameters : List Number, terms.take count = parameters.map .number →
    advanceLimit < skip → outcome = .error (.misuse .skip)

section

variable {α : Type} {count skip : Nat} {f : List Number → Number → Except Fault α}
  {terms : List Value} {parameters : List Number}

theorem splitParameters_of_first {v : Value} (hv : v.number? = none) {before : List Number}
    (hlt : before.length < count) (after : List Value) :
    splitParameters count (before.map .number ++ v :: after) =
      .error (.invalidParameter before.length v) := by
  obtain ⟨more, rfl⟩ := Nat.exists_eq_add_of_lt hlt
  have htake : (before.map Value.number ++ v :: after).take (before.length + more + 1) =
      before.map .number ++ v :: after.take more := by
    rw [Nat.add_assoc, ← List.length_map Value.number, List.take_length_add_append,
      List.take_succ_cons]
  rw [splitParameters, leading_natCast, htake, numbersFrom_of_first hv, Nat.zero_add]

theorem splitParameters_of_numbers (h : terms.take count = parameters.map .number) :
    splitParameters count terms = .ok parameters := by
  rw [splitParameters, leading_natCast, h, numbersFrom_map_number]

/-- Each parameter is one of the numbers of the terms. -/
theorem leavesOfAll_of_numbers (h : terms.take count = parameters.map .number) :
    Value.leavesOfAll terms =
      ⟨parameters ++ (Value.leavesOfAll (terms.drop count)).numbers,
        (Value.leavesOfAll (terms.drop count)).foreign⟩ := by
  conv => lhs; rw [← List.take_append_drop count terms]
  rw [Value.leavesOfAll_append, h, Value.leavesOfAll_map_number]
  rfl

theorem parameterized_of_first {v : Value} (hv : v.number? = none) {before : List Number}
    (hlt : before.length < count) (after : List Value) :
    parameterized ⟨count, skip⟩ f (before.map .number ++ v :: after) =
      .error (.invalidParameter before.length v) := by
  rw [parameterized_eq, splitParameters_of_first hv hlt]
  rfl

theorem parameterized_of_numbers (h : terms.take count = parameters.map .number) :
    parameterized ⟨count, skip⟩ f terms =
      if advanceLimit < skip then .error (.misuse .skip)
      else (⟨(parameters ++ (Value.leavesOfAll (terms.drop count)).numbers).drop skip,
        (Value.leavesOfAll (terms.drop count)).foreign.map .invalidTerm⟩ : Feed Number).mapM
          (f parameters) := by
  have hskip : (skip : Int) < 0 ∨ (advanceLimit : Int) < skip ↔ advanceLimit < skip := by omega
  rw [parameterized_eq, bind_of_eq_ok (splitParameters_of_numbers h)]
  simp only [hskip, Int.toNat_natCast, Feed.ofTerms, leavesOfAll_of_numbers h, Feed.ofLeaves,
    Feed.drop]

theorem decides_parameterized (count skip : Nat) (f : List Number → Number → Except Fault α)
    (terms : List Value) :
    ParametersDecide count skip f terms (parameterized ⟨count, skip⟩ f terms) where
  parameter before v after hterms hlt hv := by
    rw [hterms, parameterized_of_first hv hlt]
  data parameters h hskip := by
    rw [parameterized_of_numbers h, if_neg (Nat.not_lt.mpr hskip)]
    exact Feed.decides_mapM _ _ _
  uncountable parameters h hskip := by
    rw [parameterized_of_numbers h, if_pos hskip]

/-- There are results if the parameters are numbers, no leaf behind them is foreign and the
function succeeds on all data. -/
theorem parameterized_eq_ok_iff (hcount : count ≤ terms.length) (hskip : skip ≤ advanceLimit)
    {results : List α} :
    parameterized ⟨count, skip⟩ f terms = .ok results ↔
      ∃ (parameters : List Number) (rest : List Value), parameters.length = count ∧
        terms = parameters.map .number ++ rest ∧ (Value.leavesOfAll rest).foreign = none ∧
          ((parameters ++ (Value.leavesOfAll rest).numbers).drop skip).mapM (f parameters) =
            .ok results := by
  constructor
  · intro hok
    rcases numbers_or_first (terms.take count) with
      ⟨parameters, hparameters⟩ | ⟨before, v, after, hfirst, hv⟩
    · rw [parameterized_of_numbers hparameters, if_neg (Nat.not_lt.mpr hskip),
        Feed.mapM_eq_ok_iff] at hok
      refine ⟨parameters, terms.drop count, ?_, ?_, Option.map_eq_none_iff.mp hok.2, hok.1⟩
      · rw [← List.length_map Value.number, ← hparameters, List.length_take,
          Nat.min_eq_left hcount]
      · rw [← hparameters, List.take_append_drop]
    · have hlt : before.length < count := by
        have hlength := congrArg List.length hfirst
        rw [List.length_take, List.length_append, List.length_map, List.length_cons] at hlength
        omega
      rw [← List.take_append_drop count terms, hfirst, List.append_assoc, List.cons_append,
        parameterized_of_first hv hlt] at hok
      cases hok
  · rintro ⟨parameters, rest, rfl, rfl, hforeign, hmapM⟩
    have htake : (parameters.map Value.number ++ rest).take parameters.length =
        parameters.map .number := List.take_left' (List.length_map _)
    have hdrop : (parameters.map Value.number ++ rest).drop parameters.length = rest :=
      List.drop_left' (List.length_map _)
    rw [parameterized_of_numbers htake, if_neg (Nat.not_lt.mpr hskip), hdrop, Feed.mapM_eq_ok_iff]
    exact ⟨hmapM, Option.map_eq_none_iff.mpr hforeign⟩

end

/-! ## Actions with parameters -/

/-- The result of a sigmoid on four numbers. -/
def sigmoidResult (library : Elementary) (alpha beta gamma t : Number) : Value :=
  .float (sigmoid library alpha.toBinary64 beta.toBinary64 gamma.toBinary64 t.toBinary64)

def powerResult (library : Elementary) (exponent base : Number) : Value :=
  .float (power library exponent.toBinary64 base.toBinary64)

/-- The third parameter is the first of the data. -/
theorem evaluate_sigmoid_eq_ok_iff {library : Elementary} {arguments results : List Value}
    (hmin : 3 ≤ arguments.length) :
    (sigmoidEntry library).method.evaluate arguments = .ok results ↔
      ∃ alpha beta gamma rest,
        arguments = .number alpha :: .number beta :: .number gamma :: rest ∧
          (Value.leavesOfAll rest).foreign = none ∧
          results = (gamma :: (Value.leavesOfAll rest).numbers).map
            (sigmoidResult library alpha beta gamma) := by
  show parameterized ⟨(3 : Nat), (2 : Nat)⟩ _ arguments = _ ↔ _
  rw [parameterized_eq_ok_iff hmin (by decide)]
  constructor
  · rintro ⟨parameters, rest, hlength, rfl, hforeign, hresults⟩
    obtain ⟨alpha, beta, gamma, rfl⟩ := List.length_eq_three.mp hlength
    refine ⟨alpha, beta, gamma, rest, rfl, hforeign, ?_⟩
    exact (Except.ok.inj (List.mapM_pure.symm.trans hresults)).symm
  · rintro ⟨alpha, beta, gamma, rest, rfl, hforeign, rfl⟩
    exact ⟨[alpha, beta, gamma], rest, rfl, rfl, hforeign, List.mapM_pure⟩

theorem evaluate_power_eq_ok_iff {library : Elementary} {arguments results : List Value}
    (hmin : 1 ≤ arguments.length) :
    (powerEntry library).method.evaluate arguments = .ok results ↔
      ∃ exponent rest, arguments = .number exponent :: rest ∧
        (Value.leavesOfAll rest).foreign = none ∧
        results = (Value.leavesOfAll rest).numbers.map (powerResult library exponent) := by
  show parameterized ⟨(1 : Nat), (1 : Nat)⟩ _ arguments = _ ↔ _
  rw [parameterized_eq_ok_iff hmin (by decide)]
  constructor
  · rintro ⟨parameters, rest, hlength, rfl, hforeign, hresults⟩
    obtain ⟨exponent, rfl⟩ := List.length_eq_one_iff.mp hlength
    refine ⟨exponent, rest, rfl, hforeign, ?_⟩
    exact (Except.ok.inj (List.mapM_pure.symm.trans hresults)).symm
  · rintro ⟨exponent, rest, rfl, hforeign, rfl⟩
    exact ⟨[exponent], rest, rfl, rfl, hforeign, List.mapM_pure⟩

namespace Action

section

variable {library : Elementary} {scope : String} {registry : Registry}
  (h : Registry.ofCatalogue library scope = .ok registry) {action : Action}
  (ha : action ∈ registry.actions)

include h ha

/-- An action of a registry that is named as an entry succeeds where the method of the entry
does. -/
theorem execute_eq_ok_iff_of_entry {entry : CatalogueEntry} (he : entry ∈ catalogue library)
    (hname : action.name.text = qualify scope entry.shortName) {parallel : Bool}
    {arguments sink after : List Value} :
    action.execute parallel arguments sink = (.ok (), after) ↔
      ∃ results, entry.minimalArguments ≤ arguments.length ∧
        entry.method.evaluate arguments = .ok results ∧ after = sink ++ results := by
  obtain ⟨entry', he', hname', hminimum, hmethod⟩ := Registry.mem_catalogue h ha
  obtain rfl : entry' = entry :=
    CatalogueEntry.eq_of_shortName_eq he' he (qualify_inj (hname'.symm.trans hname))
  simp only [execute_eq_ok_iff, results_eq_ok_iff, hminimum, hmethod, and_assoc]

theorem execute_sigmoid_eq_ok_iff (hname : action.name.text = qualify scope "sigmoid")
    {parallel : Bool} {arguments sink after : List Value} :
    action.execute parallel arguments sink = (.ok (), after) ↔
      ∃ alpha beta gamma rest,
        arguments = .number alpha :: .number beta :: .number gamma :: rest ∧
          (Value.leavesOfAll rest).foreign = none ∧
          after = sink ++ (gamma :: (Value.leavesOfAll rest).numbers).map
            (sigmoidResult library alpha beta gamma) := by
  rw [execute_eq_ok_iff_of_entry h ha (mem_sigmoidEntry library) hname]
  constructor
  · rintro ⟨results, hmin, hresults, rfl⟩
    obtain ⟨alpha, beta, gamma, rest, harguments, hforeign, rfl⟩ :=
      (evaluate_sigmoid_eq_ok_iff hmin).mp hresults
    exact ⟨alpha, beta, gamma, rest, harguments, hforeign, rfl⟩
  · rintro ⟨alpha, beta, gamma, rest, rfl, hforeign, rfl⟩
    have hmin : 3 ≤ (Value.number alpha :: .number beta :: .number gamma :: rest).length :=
      Nat.le_add_left 3 rest.length
    exact ⟨_, hmin, (evaluate_sigmoid_eq_ok_iff hmin).mpr
      ⟨alpha, beta, gamma, rest, rfl, hforeign, rfl⟩, rfl⟩

/-- A power has two arguments at least, so that there is one behind the parameter. -/
theorem execute_power_eq_ok_iff (hname : action.name.text = qualify scope "pow")
    {parallel : Bool} {arguments sink after : List Value} :
    action.execute parallel arguments sink = (.ok (), after) ↔
      ∃ exponent rest, arguments = .number exponent :: rest ∧ rest ≠ [] ∧
        (Value.leavesOfAll rest).foreign = none ∧
        after = sink ++ (Value.leavesOfAll rest).numbers.map (powerResult library exponent) := by
  rw [execute_eq_ok_iff_of_entry h ha (mem_powerEntry library) hname]
  constructor
  · rintro ⟨results, hmin, hresults, rfl⟩
    obtain ⟨exponent, rest, rfl, hforeign, rfl⟩ :=
      (evaluate_power_eq_ok_iff (Nat.le_of_succ_le hmin)).mp hresults
    exact ⟨exponent, rest, rfl, List.ne_nil_of_length_pos (Nat.le_of_succ_le_succ hmin),
      hforeign, rfl⟩
  · rintro ⟨exponent, rest, rfl, hrest, hforeign, rfl⟩
    have hmin : 1 ≤ rest.length := List.length_pos_of_ne_nil hrest
    exact ⟨_, Nat.succ_le_succ hmin, (evaluate_power_eq_ok_iff (Nat.le_add_left 1 _)).mpr
      ⟨exponent, rest, rfl, hforeign, rfl⟩, rfl⟩

end

/-- Functions behind parameters. For every function, every count of parameters, every count of
numbers to skip and all terms, the first parameter that is no number decides; behind numbers the
first problem of the data decides, where the data are the parameters and the leaves of the other
terms without the skipped ones. So a sigmoid of a registry has a result for its third parameter
and one for each leaf behind the parameters, and a power has one for each leaf behind the
exponent. -/
theorem execute_parameterized {library : Elementary} {scope : String} {registry : Registry}
    (h : Registry.ofCatalogue library scope = .ok registry) :
    (∀ (α : Type) (count skip : Nat) (f : List Number → Number → Except Fault α)
      (terms : List Value),
      ParametersDecide count skip f terms (parameterized ⟨count, skip⟩ f terms)) ∧
    (∀ (i : Nat) (v : Value) (action : Option String),
      (Fault.invalidParameter i v).kind = .termType ∧
      (⟨.invalidParameter i v, action⟩ : Failure).message =
        (action.filter fun name => !name.isEmpty).elim "" (· ++ ": ") ++
          (s!"parameter #{i} " ++ "expected a number, got " ++
            (v.typeName ++ ": " ++ v.literal))) ∧
    ∀ action ∈ registry.actions, ∀ (parallel : Bool) (arguments sink after : List Value),
      (action.name.text = qualify scope "sigmoid" →
        (action.execute parallel arguments sink = (.ok (), after) ↔
          ∃ alpha beta gamma rest,
            arguments = .number alpha :: .number beta :: .number gamma :: rest ∧
              (Value.leavesOfAll rest).foreign = none ∧
              after = sink ++ (gamma :: (Value.leavesOfAll rest).numbers).map
                (sigmoidResult library alpha beta gamma))) ∧
      (action.name.text = qualify scope "pow" →
        (action.execute parallel arguments sink = (.ok (), after) ↔
          ∃ exponent rest, arguments = .number exponent :: rest ∧ rest ≠ [] ∧
            (Value.leavesOfAll rest).foreign = none ∧
            after = sink ++
              (Value.leavesOfAll rest).numbers.map (powerResult library exponent))) := by
  refine ⟨fun α count skip f terms => decides_parameterized count skip f terms,
    fun i v action => ⟨rfl, Failure.message_of_namesAction rfl action⟩, ?_⟩
  intro action ha parallel arguments sink after
  exact ⟨fun hname => execute_sigmoid_eq_ok_iff h ha hname,
    fun hname => execute_power_eq_ok_iff h ha hname⟩

/-- A sigmoid of nested numbers, a list for a parameter in front of a foreign leaf, and a foreign
leaf among the skipped numbers. -/
theorem execute_parameterized_nested : ∃ registry action,
    Registry.ofCatalogue Elementary.native "math" = .ok registry ∧ action ∈ registry.actions ∧
      action.name.text = qualify "math" "sigmoid" ∧
      action.execute false [.int 1, .int 2, .int 3, .list [.int 0, .tuple [.int 4]]] [.null] =
        (.ok (), [.null, sigmoidResult Elementary.native (.int 1) (.int 2) (.int 3) (.int 3),
          sigmoidResult Elementary.native (.int 1) (.int 2) (.int 3) (.int 0),
          sigmoidResult Elementary.native (.int 1) (.int 2) (.int 3) (.int 4)]) ∧
      parameterized ⟨(2 : Nat), (0 : Nat)⟩ (fun _ _ => (.error .division : Except Fault Number))
        [.int 1, .list [.int 2], .null] = .error (.invalidParameter 1 (.list [.int 2])) ∧
      parameterized ⟨(1 : Nat), (4 : Nat)⟩ (fun _ _ => (.error .division : Except Fault Number))
        [.int 1, .list [.int 2, .null], .int 3] = .error (.invalidTerm .null) := by
  obtain ⟨registry, action, hr, ha, hname, -⟩ :=
    Registry.exists_action_of_entry isScope_math (mem_sigmoidEntry Elementary.native)
  obtain ⟨hdecides, -, hactions⟩ := execute_parameterized hr
  refine ⟨registry, action, hr, ha, hname, ?_, ?_, ?_⟩
  · exact ((hactions action ha false _ _ _).1 hname).mpr
      ⟨.int 1, .int 2, .int 3, [.list [.int 0, .tuple [.int 4]]], rfl, rfl, rfl⟩
  · exact (hdecides Number 2 0 _ _).parameter [.int 1] _ [.null] rfl (by decide) rfl
  · refine ((hdecides Number 1 4 _ _).data [.int 1] rfl (by decide)).leaf _ rfl fun u hu => ?_
    rw [List.drop_of_length_le (by decide)] at hu
    cases hu

end Action

/-- With more numbers to skip than can be counted there are no data, but the outcome is not that
of a function without data. -/
theorem not_decides_of_uncountable :
    ¬ FirstProblemDecides (fun n => .ok n)
      (([] ++ (Value.leavesOfAll [.int 1]).numbers).drop 9223372036854775808)
      (Value.leavesOfAll [.int 1]).foreign
      (parameterized ⟨(0 : Nat), (9223372036854775808 : Nat)⟩ (fun _ n => .ok n) [.int 1]) := by
  intro hdecides
  have hdata : ([] ++ (Value.leavesOfAll [.int 1]).numbers).drop 9223372036854775808 = [] :=
    List.drop_of_length_le (by decide)
  rw [hdata] at hdecides
  obtain ⟨results, hresults, -⟩ := hdecides.results rfl (List.forall_mem_nil _)
  rw [(decides_parameterized 0 9223372036854775808 _ _).uncountable [] rfl (by decide)] at hresults
  cases hresults

end NumericActions
