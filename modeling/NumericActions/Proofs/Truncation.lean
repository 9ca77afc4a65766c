import Mathlib.Data.Rat.Floor
import NumericActions.Proofs.HalfEven
import NumericActions.Proofs.FirstProblem
import NumericActions.Proofs.IntegerFaults
import NumericActions.Proofs.Scopes

/-!
# Truncation

The functions of integers see of a number what narrowing makes of it, and nothing else. A finite
number whose integer part fits in 64 bits can be replaced by that integer, at any depth and in
any number of places, and no outcome changes. A number that cannot be narrowed is the problem of
the unit it stands in.

* `Binary64.truncInt_eq_towardZero`: the integer part over the rationals.
* `Number.toInt64_cases`, `Number.toInt64_float_eq_ok_iff`: the two outcomes of narrowing.
* `Value.Truncates`: a value with some of its numbers replaced by their integer parts.
* `Value.TruncatesAll.leavesOfAll`: the leaves are narrowed alike.
* `Method.OfIntegers`: the methods of functions of integers, with what their units come to.
* `Action.execute_truncation`: the actions of a registry.
-/

namespace NumericActions

/-! ## Integer parts -/

/-- The integer part of a number, its fraction being cut off. -/
def towardZero (q : ℚ) : Int := if 0 ≤ q then ⌊q⌋ else ⌈q⌉

theorem towardZero_div (n : Int) {d : Nat} (hd : 0 < d) : towardZero ((n : ℚ) / d) = n.tdiv d := by
  have hd' : (0 : ℚ) < d := Nat.cast_pos.mpr hd
  unfold towardZero
  by_cases hn : 0 ≤ n
  · rw [if_pos (div_nonneg (Int.cast_nonneg hn) hd'.le), Rat.floor_intCast_div_natCast,
      Int.tdiv_eq_ediv_of_nonneg hn]
  · -- below zero the fraction is cut off upwards
    have hneg : ¬ 0 ≤ (n : ℚ) / d := by
      rw [not_le]
      exact div_neg_of_neg_of_pos (Int.cast_lt_zero.mpr (not_le.mp hn)) hd'
    have hfloor : ⌊((-n : Int) : ℚ) / d⌋ = -n / d := Rat.floor_intCast_div_natCast (-n) d
    rw [if_neg hneg, ← neg_neg n, Int.cast_neg, neg_div, Int.ceil_neg, hfloor, Int.neg_tdiv,
      Int.tdiv_eq_ediv_of_nonneg (by omega)]

theorem Binary64.truncInt_eq_towardZero (negative : Bool) (m : Magnitude) :
    truncInt negative m = towardZero (Binary64.finite negative m).toRat :=
  (towardZero_div _ unitsPerOne_pos).symm

/-- A finite number whose integer part is a given integer of 64 bits. -/
structure Binary64.TruncatesTo (x : Binary64) (n : Int) : Prop where
  finite : x.isFinite = true
  value : towardZero x.toRat = n
  range : int64Min ≤ n ∧ n ≤ int64Max

/-- A number that is not finite, or whose integer part does not fit in 64 bits. -/
def Number.OutsideInt64 : Number → Prop
  | .int n => n < int64Min ∨ int64Max < n
  | .float x =>
    x.isFinite = false ∨ towardZero x.toRat < int64Min ∨ int64Max < towardZero x.toRat

/-! ## Narrowing -/

namespace Number

theorem toInt64_finite (negative : Bool) (m : Magnitude) :
    (Number.float (.finite negative m)).toInt64 =
      if towardZero (Binary64.finite negative m).toRat < int64Min ∨
          int64Max < towardZero (Binary64.finite negative m).toRat then
        .error (.domain (.tooWide (.float (.finite negative m))))
      else .ok (towardZero (Binary64.finite negative m).toRat) := by
  rw [← Binary64.truncInt_eq_towardZero]
  simp only [toInt64, toInt64.narrow, exceedsInt64_int, decide_eq_true_eq]

theorem toInt64_of_not_finite {x : Binary64} (h : x.isFinite = false) :
    (Number.float x).toInt64 = .error (.domain (.notFinite x)) := by
  cases x with
  | nan => rfl
  | infinity negative => rfl
  | finite negative m => cases h

theorem toInt64_float_eq_ok_iff {x : Binary64} {n : Int} :
    (Number.float x).toInt64 = .ok n ↔ x.TruncatesTo n := by
  cases hx : x.isFinite with
  | false =>
    rw [toInt64_of_not_finite hx]
    refine ⟨nofun, fun h => ?_⟩
    have hfinite := h.finite
    rw [hx] at hfinite
    cases hfinite
  | true =>
    obtain ⟨negative, m, rfl⟩ := Binary64.exists_of_isFinite hx
    rw [toInt64_finite]
    split
    · rename_i hout
      refine ⟨nofun, fun h => ?_⟩
      have hvalue := h.value
      have hrange := h.range
      omega
    · rename_i hin
      rw [Except.ok.injEq]
      exact ⟨fun h => ⟨rfl, h, by omega⟩, fun h => h.value⟩

/-- Narrowing fails for the numbers outside, always with a fault of the domain. -/
theorem toInt64_cases (x : Number) :
    (¬ x.OutsideInt64 ∧ ∃ n, x.toInt64 = .ok n) ∨
      x.OutsideInt64 ∧ ∃ cause, x.toInt64 = .error (.domain cause) := by
  cases x with
  | int n =>
    rw [toInt64_int, OutsideInt64]
    split
    · rename_i hout
      exact .inr ⟨hout, _, rfl⟩
    · rename_i hin
      exact .inl ⟨hin, _, rfl⟩
  | float x =>
    rw [OutsideInt64]
    cases hx : x.isFinite with
    | false =>
      rw [toInt64_of_not_finite hx]
      exact .inr ⟨.inl rfl, _, rfl⟩
    | true =>
      obtain ⟨negative, m, rfl⟩ := Binary64.exists_of_isFinite hx
      have hfinite : ¬ true = false := Bool.noConfusion
      rw [toInt64_finite, or_iff_right hfinite]
      split
      · rename_i hout
        exact .inr ⟨hout, _, rfl⟩
      · rename_i hin
        exact .inl ⟨hin, _, rfl⟩

theorem exists_domain_of_toInt64 {x : Number} {fault : Fault} (h : x.toInt64 = .error fault) :
    ∃ cause, fault = .domain cause := by
  rcases x.toInt64_cases with ⟨-, n, hn⟩ | ⟨-, cause, hcause⟩
  · rw [h] at hn
    cases hn
  · rw [h] at hcause
    cases hcause
    exact ⟨cause, rfl⟩

theorem toOption_toInt64_eq_none_iff {x : Number} : x.toInt64.toOption = none ↔ x.OutsideInt64 := by
  rcases x.toInt64_cases with ⟨hin, n, hn⟩ | ⟨hout, cause, hcause⟩
  · refine ⟨fun h => ?_, fun hout => absurd hout hin⟩
    rw [hn] at h
    cases h
  · rw [hcause]
    exact ⟨fun _ => hout, fun _ => rfl⟩

instance : DecidablePred OutsideInt64 := fun _ =>
  decidable_of_iff _ toOption_toInt64_eq_none_iff

theorem toOption_toInt64_eq_some_iff {x : Binary64} {n : Int} :
    (Number.float x).toInt64.toOption = some n ↔ x.TruncatesTo n := by
  rw [← toInt64_float_eq_ok_iff]
  cases (Number.float x).toInt64 with
  | error fault => constructor <;> intro h <;> cases h
  | ok k => rw [Except.toOption, Option.some.injEq, Except.ok.injEq]

instance (x : Binary64) (n : Int) : Decidable (x.TruncatesTo n) :=
  decidable_of_iff _ toOption_toInt64_eq_some_iff

theorem toInt64_of_truncatesTo {x : Binary64} {n : Int} (h : x.TruncatesTo n) :
    (Number.float x).toInt64 = (Number.int n).toInt64 := by
  have hrange : ¬ (n < int64Min ∨ int64Max < n) := by
    have := h.range
    omega
  rw [toInt64_float_eq_ok_iff.mpr h, toInt64_int, if_neg hrange]

end Number

/-! ## Leaves that are narrowed alike -/

/-- Narrowing does not tell the numbers of one traversal from those of another, and both come to
the same foreign leaf. -/
structure Leaves.NarrowAlike (a b : Leaves) : Prop where
  numbers : a.numbers.map Number.toInt64 = b.numbers.map Number.toInt64
  foreign : a.foreign = b.foreign

namespace Leaves.NarrowAlike

theorem refl (a : Leaves) : NarrowAlike a a := ⟨rfl, rfl⟩

theorem append {a b c d : Leaves} (h : NarrowAlike a b) (h' : NarrowAlike c d) :
    NarrowAlike (a ++ c) (b ++ d) := by
  obtain ⟨numbers, foreign⟩ := a
  obtain ⟨numbers', foreign'⟩ := b
  obtain ⟨hnumbers, hforeign⟩ := h
  dsimp only at hnumbers hforeign
  subst hforeign
  cases foreign with
  | some v => exact ⟨hnumbers, rfl⟩
  | none =>
    refine ⟨?_, h'.foreign⟩
    show (numbers ++ c.numbers).map Number.toInt64 = (numbers' ++ d.numbers).map Number.toInt64
    rw [List.map_append, List.map_append, hnumbers, h'.numbers]

end Leaves.NarrowAlike

namespace Value

mutual

/-- A value with some of its finite numbers replaced by their integer parts, at any depth. -/
inductive Truncates : Value → Value → Prop where
  | same (v : Value) : Truncates v v
  | leaf {x : Binary64} {n : Int} (h : x.TruncatesTo n) : Truncates (float x) (int n)
  | list {vs ws : List Value} (h : TruncatesAll vs ws) : Truncates (list vs) (list ws)
  | tuple {vs ws : List Value} (h : TruncatesAll vs ws) : Truncates (tuple vs) (tuple ws)

inductive TruncatesAll : List Value → List Value → Prop where
  | nil : TruncatesAll [] []
  | cons {v w : Value} {vs ws : List Value} (h : Truncates v w) (hs : TruncatesAll vs ws) :
      TruncatesAll (v :: vs) (w :: ws)

end

mutual

-- by recursion on the two relations, which follow the recursion of the leaves
theorem Truncates.leaves {v w : Value} : Truncates v w → v.leaves.NarrowAlike w.leaves
  | .same v => .refl v.leaves
  | .leaf h => ⟨congrArg (fun n => [n]) (Number.toInt64_of_truncatesTo h), rfl⟩
  | .list h => h.leavesOfAll
  | .tuple h => h.leavesOfAll

theorem TruncatesAll.leavesOfAll {vs ws : List Value} :
    TruncatesAll vs ws → (leavesOfAll vs).NarrowAlike (leavesOfAll ws)
  | .nil => .refl Leaves.empty
  | .cons h hs => h.leaves.append hs.leavesOfAll

end

theorem TruncatesAll.length_eq {vs ws : List Value} (h : TruncatesAll vs ws) :
    vs.length = ws.length := by
  induction vs generalizing ws with
  | nil =>
    cases h
    rfl
  | cons v vs ih =>
    cases h with
    | cons h hs => rw [List.length_cons, List.length_cons, ih hs]

end Value

/-! ## Units -/

theorem Feed.mapM_map {α β γ : Type} (g : α → β) (f : β → Except Fault γ) (items : List α)
    (fault : Option Fault) :
    (⟨items.map g, fault⟩ : Feed β).mapM f = (⟨items, fault⟩ : Feed α).mapM (f ∘ g) := by
  unfold Feed.mapM
  rw [List.mapM_map]

theorem pairs_map {α β : Type} (g : α → β) (items : List α) :
    pairs (items.map g) = (pairs items).map (List.map g) := by
  induction items using pairs.induct with
  | case1 a b rest ih => simp only [List.map_cons, pairs, ih, List.map_nil]
  | case2 a => rfl
  | case3 => rfl

namespace Method

/-- The units that a method handles one by one, each with what it comes to: every number by
itself, or every full window. -/
def units? : Method → List Number → Option (List (List Number × Except Fault Value))
  | .elementwise f, numbers => some (numbers.map fun x => ([x], f x))
  | .windowed w f, numbers => some ((windows w numbers).map fun window => (window, f window))
  | .aggregate _, _ => none
  | .parameterized _ _, _ => none

/-- The methods of functions of integers. -/
inductive OfIntegers : Method → Prop where
  | each (f : Int → Except Fault Value) : OfIntegers (ofIntegers f)
  | pair (name : String) (f : Int → Int → Except Fault Int) : OfIntegers (ofIntegerPairs name f)

/-- A function of two integers on a window. -/
def integerPair (name : String) (f : Int → Int → Except Fault Int) :
    List Number → Except Fault Value :=
  ofPair (pairSignature name "n" "k") fun a b => do
    let n ← a.toInt64
    let k ← b.toInt64
    return .int (← f n k)

/-- What a function of two integers comes to, from what narrowing the numbers comes to. -/
def narrowedPair (name : String) (f : Int → Int → Except Fault Int) :
    List (Except Fault Int) → Except Fault Value
  | [a, b] => do
    let n ← a
    let k ← b
    return .int (← f n k)
  | narrowed => .error (.argumentCount (pairSignature name "n" "k") (narrowed.length + 1))

theorem integerPair_eq (name : String) (f : Int → Int → Except Fault Int) (window : List Number) :
    integerPair name f window = narrowedPair name f (window.map Number.toInt64) := by
  match window with
  | [] | [_] | [_, _] => rfl
  | _ :: _ :: _ :: _ => simp [integerPair, ofPair, narrowedPair]

/-- The first number of a pair that cannot be narrowed is its problem. -/
theorem exists_integerPair_error (name : String) (f : Int → Int → Except Fault Int)
    {a b x : Number} (hx : x ∈ [a, b]) {cause : DomainFault}
    (hcause : x.toInt64 = .error (.domain cause)) :
    ∃ cause, integerPair name f [a, b] = .error (.domain cause) := by
  rw [integerPair_eq]
  show ∃ cause, narrowedPair name f [a.toInt64, b.toInt64] = _
  -- both numbers are narrowed before the function is applied, the first one first
  cases ha : a.toInt64 with
  | error fault =>
    obtain ⟨first, rfl⟩ := Number.exists_domain_of_toInt64 ha
    exact ⟨first, rfl⟩
  | ok n =>
    rcases List.mem_pair.mp hx with rfl | rfl
    · rw [ha] at hcause
      cases hcause
    · rw [hcause]
      exact ⟨cause, rfl⟩

theorem units?_ofIntegerPairs (name : String) (f : Int → Int → Except Fault Int)
    (numbers : List Number) :
    (ofIntegerPairs name f).units? numbers =
      some ((pairs numbers).map fun window => (window, integerPair name f window)) := by
  rw [← windows_pairs]
  rfl

namespace OfIntegers

variable {method : Method}

/-- The results are those of the units, in their order. -/
theorem evaluate_eq (h : method.OfIntegers) (arguments : List Value) :
    ∃ units, method.units? (Value.leavesOfAll arguments).numbers = some units ∧
      method.evaluate arguments =
        (⟨units.map Prod.snd, (Value.leavesOfAll arguments).foreign.map .invalidTerm⟩ :
          Feed _).mapM id := by
  cases h with
  | each f =>
    refine ⟨_, rfl, ?_⟩
    rw [List.map_map, Feed.mapM_map]
    exact elementwise_eq _ arguments
  | pair name f =>
    refine ⟨_, units?_ofIntegerPairs name f _, ?_⟩
    rw [List.map_map, Feed.mapM_map]
    show NumericActions.windowed .pairs _ arguments = _
    rw [windowed_eq, Feed.windowed_pairs]
    rfl

/-- What the units come to depends on the narrowed numbers alone. -/
theorem units_congr (h : method.OfIntegers) {xs ys : List Number}
    (hxy : xs.map Number.toInt64 = ys.map Number.toInt64)
    {unitsX unitsY : List (List Number × Except Fault Value)}
    (hX : method.units? xs = some unitsX) (hY : method.units? ys = some unitsY) :
    unitsX.map Prod.snd = unitsY.map Prod.snd := by
  cases h with
  | each f =>
    cases hX
    cases hY
    have hnarrowed : ∀ numbers : List Number,
        (numbers.map fun x => ([x], x.toInt64 >>= f)).map Prod.snd =
          (numbers.map Number.toInt64).map (· >>= f) := by
      intro numbers
      rw [List.map_map, List.map_map]
      rfl
    exact (hnarrowed xs).trans (hxy ▸ (hnarrowed ys).symm)
  | pair name f =>
    rw [units?_ofIntegerPairs] at hX hY
    cases hX
    cases hY
    -- narrowing all numbers keeps the pairs in which they stand
    have hnarrowed : ∀ numbers : List Number,
        ((pairs numbers).map fun window =>
            (window, integerPair name f window)).map Prod.snd =
          (pairs (numbers.map Number.toInt64)).map (narrowedPair name f) := by
      intro numbers
      rw [pairs_map, List.map_map, List.map_map]
      exact List.map_congr_left fun window _ => integerPair_eq name f window
    exact (hnarrowed xs).trans (hxy ▸ (hnarrowed ys).symm)

/-- A unit with a number that cannot be narrowed is outside the domain. -/
theorem exists_cause_of_outside (h : method.OfIntegers) {numbers : List Number}
    {units : List (List Number × Except Fault Value)} (hunits : method.units? numbers = some units)
    {unit : List Number × Except Fault Value} (hmem : unit ∈ units) {x : Number}
    (hx : x ∈ unit.1) (hout : x.OutsideInt64) :
    ∃ cause, unit.2 = .error (.domain cause) := by
  obtain ⟨cause, hcause⟩ := (x.toInt64_cases.resolve_left fun hin => hin.1 hout).2
  cases h with
  | each f =>
    cases hunits
    obtain ⟨y, -, rfl⟩ := List.mem_map.mp hmem
    obtain rfl := List.mem_singleton.mp hx
    refine ⟨cause, ?_⟩
    show x.toInt64 >>= f = _
    rw [hcause]
    rfl
  | pair name f =>
    rw [units?_ofIntegerPairs] at hunits
    cases hunits
    obtain ⟨window, hwindow, rfl⟩ := List.mem_map.mp hmem
    obtain ⟨a, b, rfl⟩ := exists_of_mem_pairs hwindow
    exact exists_integerPair_error name f hx hcause

end OfIntegers

end Method

/-! ## The catalogue -/

/-- The short names of the functions of integers. -/
def integerNames : List String :=
  ["isprime", "nextprime", "factorial", "primefactors", "stirling", "binomial"]

theorem CatalogueEntry.ofIntegers_of_mem {library : Elementary} {entry : CatalogueEntry}
    (he : entry ∈ catalogue library) (hname : entry.shortName ∈ integerNames) :
    entry.method.OfIntegers := by
  rcases mem_catalogue_iff.mp he with h | h | h
  · rcases List.mem_append.mp h with h | h
    · have hother : ∀ f ∈ FloatFunction.all, f.name ∉ integerNames := by decide +kernel
      obtain ⟨f, hf, rfl⟩ := List.mem_map.mp h
      exact absurd hname (hother f hf)
    · simp only [List.mem_cons, List.not_mem_nil, or_false] at h
      rcases h with rfl | rfl | rfl | rfl | rfl
      · exact absurd hname (by decide)
      all_goals exact .each _
  · simp only [windowedEntries, List.mem_cons, List.not_mem_nil, or_false] at h
    rcases h with rfl | rfl | rfl
    · exact absurd hname (by decide)
    all_goals exact .pair _ _
  · have hother : ∀ other ∈ (aggregateEntries library ++ parameterizedEntries library).map
        (·.shortName), other ∉ integerNames := by
      show ∀ other ∈ (aggregateEntries Elementary.native ++
        parameterizedEntries Elementary.native).map (·.shortName), other ∉ integerNames
      decide +kernel
    exact absurd hname (hother _ (List.mem_map_of_mem (List.mem_append.mpr h)))

/-! ## Actions -/

namespace Action

theorem exists_stirling : ∃ registry action,
    Registry.ofCatalogue Elementary.native "math" = .ok registry ∧ action ∈ registry.actions ∧
      action.name.text = qualify "math" "stirling" ∧ action.minimalArguments = 2 ∧
      action.method = ofIntegerPairs "_stirling" stirling := by
  have he : ⟨"stirling", "Stirling number of the second kind S(n, k) for each pair", 2,
      ofIntegerPairs "_stirling" stirling⟩ ∈ catalogue Elementary.native :=
    mem_catalogue_iff.mpr (.inr (.inl (List.mem_cons_of_mem _ List.mem_cons_self)))
  exact Registry.exists_action_of_entry isScope_math he

theorem results_congr_of_truncatesAll {action : Action} (h : action.method.OfIntegers)
    {a b : List Value} (hab : Value.TruncatesAll a b) : action.results a = action.results b := by
  by_cases hlength : action.minimalArguments ≤ a.length
  · obtain ⟨hnumbers, hforeign⟩ := hab.leavesOfAll
    obtain ⟨unitsA, hunitsA, hA⟩ := h.evaluate_eq a
    obtain ⟨unitsB, hunitsB, hB⟩ := h.evaluate_eq b
    have hunits := h.units_congr hnumbers hunitsA hunitsB
    rw [results_of_le_length hlength, results_of_le_length (hab.length_eq ▸ hlength), hA, hB,
      hunits, hforeign]
  · -- too few arguments are too few of the others as well
    have hlengthA : a.length < action.minimalArguments := not_le.mp hlength
    rw [results_of_length_lt hlengthA, results_of_length_lt (hab.length_eq ▸ hlengthA),
      hab.length_eq]

/-- An action of a function of integers does not tell a finite number from its integer part, if
that fits in 64 bits: the whole outcome stays the same when any of them are replaced. If there are
enough arguments, a number that cannot be narrowed and stands in a full unit is outside the domain,
as long as the units before it succeed. -/
theorem execute_truncation {library : Elementary} {scope : String} {registry : Registry}
    (h : Registry.ofCatalogue library scope = .ok registry) {action : Action}
    (ha : action ∈ registry.actions) {short : String} (hshort : short ∈ integerNames)
    (hname : action.name.text = qualify scope short) :
    (∀ a b, Value.TruncatesAll a b → ∀ parallel sink,
      action.execute parallel a sink = action.execute parallel b sink) ∧
    ∀ arguments, action.minimalArguments ≤ arguments.length →
      ∃ units, action.method.units? (Value.leavesOfAll arguments).numbers = some units ∧
        ∀ before unit after, units = before ++ unit :: after →
          (∀ u ∈ before, ∃ value, u.2 = .ok value) →
          ∀ x ∈ unit.1, x.OutsideInt64 →
            ∃ cause, ∀ parallel sink, action.execute parallel arguments sink =
              (.error ⟨.domain cause, some action.name.text⟩, sink) := by
  obtain ⟨entry, he, hentry, -, hmethod⟩ := Registry.mem_catalogue h ha
  have hintegers : action.method.OfIntegers := by
    rw [hmethod]
    refine CatalogueEntry.ofIntegers_of_mem he ?_
    rwa [qualify_inj (hentry.symm.trans hname)]
  constructor
  · intro a b hab parallel sink
    rw [execute_eq, execute_eq, results_congr_of_truncatesAll hintegers hab]
  · intro arguments hlength
    obtain ⟨units, hunits, hevaluate⟩ := hintegers.evaluate_eq arguments
    refine ⟨units, hunits, ?_⟩
    rintro before unit after rfl hbefore x hx hout
    obtain ⟨cause, hcause⟩ := hintegers.exists_cause_of_outside hunits
      (List.mem_append_right before List.mem_cons_self) hx hout
    refine ⟨cause, fun parallel sink => ?_⟩
    have hresults : action.results arguments = .error (.domain cause) := by
      rw [results_of_le_length hlength, hevaluate, Feed.mapM_map]
      exact (Feed.decides_mapM _ _ _).unit before unit after _ rfl hbefore hcause
    rw [execute_eq, hresults]

/-- Halves next to zero and the least 64-bit integer can be replaced, at any depth. The number
`2 ^ 63` behind it cannot be narrowed. -/
theorem execute_truncation_stirling : ∃ registry action,
    Registry.ofCatalogue Elementary.native "math" = .ok registry ∧ action ∈ registry.actions ∧
      action.name.text = qualify "math" "stirling" ∧
      (∀ parallel sink,
        action.execute parallel [.float (-0.5), .list [.float 0.5],
          .tuple [.float (-9223372036854775808), .float 9223372036854775808]] sink =
        action.execute parallel [.int 0, .list [.int 0],
          .tuple [.int (-9223372036854775808), .float 9223372036854775808]] sink) ∧
      ∃ cause, ∀ parallel sink,
        action.execute parallel [.int 0, .list [.int 0],
          .tuple [.int (-9223372036854775808), .float 9223372036854775808]] sink =
        (.error ⟨.domain cause, some action.name.text⟩, sink) := by
  obtain ⟨registry, action, hr, ha, hname, hminimum, hmethod⟩ := exists_stirling
  obtain ⟨hsame, houtside⟩ := execute_truncation hr ha (by decide) hname
  refine ⟨registry, action, hr, ha, hname, hsame _ _ ?_, ?_⟩
  · have hzero : (-0.5 : Binary64).TruncatesTo 0 := by decide +kernel
    have hhalf : (0.5 : Binary64).TruncatesTo 0 := by decide +kernel
    have hleast : (-9223372036854775808 : Binary64).TruncatesTo (-9223372036854775808) := by
      decide +kernel
    exact .cons (.leaf hzero) (.cons (.list (.cons (.leaf hhalf) .nil))
      (.cons (.tuple (.cons (.leaf hleast) (.cons (.same _) .nil))) .nil))
  · obtain ⟨units, hunits, hfirst⟩ := houtside [.int 0, .list [.int 0],
      .tuple [.int (-9223372036854775808), .float 9223372036854775808]] (by rw [hminimum]; decide)
    rw [hmethod, Method.units?_ofIntegerPairs] at hunits
    cases hunits
    refine hfirst [_] _ [] rfl ?_ (.float 9223372036854775808) ?_ (by decide +kernel)
    · intro unit hunit
      obtain rfl := List.mem_singleton.mp hunit
      exact exists_eq_ok (by decide +kernel)
    · exact List.mem_cons_of_mem _ List.mem_cons_self

/-- With one argument a pair with not-a-number is not looked at: there are too few arguments. -/
theorem not_execute_truncation_short : ∃ registry action,
    Registry.ofCatalogue Elementary.native "math" = .ok registry ∧ action ∈ registry.actions ∧
      action.name.text = qualify "math" "stirling" ∧
      (Number.float .nan).OutsideInt64 ∧
      Value.leavesOfAll [.list [.int 1, .float .nan]] = ⟨[.int 1, .float .nan], none⟩ ∧
      (∃ outcome, action.method.units? [.int 1, .float .nan] =
        some [([.int 1, .float .nan], outcome)]) ∧
      ∀ parallel sink, action.execute parallel [.list [.int 1, .float .nan]] sink =
        (.error ⟨.tooFewArguments 2 1, some action.name.text⟩, sink) := by
  obtain ⟨registry, action, hr, ha, hname, hminimum, hmethod⟩ := exists_stirling
  refine ⟨registry, action, hr, ha, hname, .inl rfl, rfl, ?_, fun parallel sink => ?_⟩
  · rw [hmethod, Method.units?_ofIntegerPairs]
    exact ⟨_, rfl⟩
  · have hlength : [Value.list [.int 1, .float .nan]].length < action.minimalArguments := by
      rw [hminimum]
      decide
    rw [execute_eq, results_of_length_lt hlength, hminimum]
    rfl

end Action

end NumericActions
