import SatSearch.Proofs.Reachability

/-!
# Renamed branches

A list of clauses is another one with its variables renamed if, read as sets of literals, their
clauses are the same up to the new names.  Renaming keeps the order of the variables that are known.
Branches of the two correspond if the same decisions were made on them and, between any two of
these, the same literals were inferred, all of them renamed and in whatever order.  Then every
question about the clauses has the renamed answer, and unwinding leads to branches that correspond
again.
-/

namespace SatSearch

/-! ## Renaming literals -/

def Literal.rename (r : Variable → Variable) (l : Literal) : Literal :=
  ⟨r l.var, l.positive⟩

namespace Literal

@[simp] theorem var_rename (r : Variable → Variable) (l : Literal) :
    (l.rename r).var = r l.var := rfl

@[simp] theorem rename_neg (r : Variable → Variable) (l : Literal) :
    (-l).rename r = -l.rename r := rfl

@[simp] theorem rename_id : rename id = id := rfl

theorem eq_of_rename_eq {r : Variable → Variable} {known : Set Variable}
    (hr : Set.InjOn r known) {l m : Literal} (hl : l.var ∈ known) (hm : m.var ∈ known)
    (h : l.rename r = m.rename r) : l = m := by
  have hvar : l.var = m.var := hr hl hm (congrArg var h)
  have hpositive : (l.rename r).positive = (m.rename r).positive := congrArg positive h
  cases l
  cases m
  simp_all [rename]

end Literal

theorem nodup_map_rename {r : Variable → Variable} {known : Set Variable}
    (hr : Set.InjOn r known) {ls : List Literal} (hnodup : ls.Nodup)
    (hknown : ∀ l ∈ ls, l.var ∈ known) : (ls.map (Literal.rename r)).Nodup := by
  rw [List.nodup_map_iff_inj_on hnodup]
  intro l hl m hm
  exact Literal.eq_of_rename_eq hr (hknown l hl) (hknown m hm)

theorem nodup_map_var_rename {r : Variable → Variable} {known : Set Variable}
    (hr : Set.InjOn r known) {ls : List Literal} (hnodup : (ls.map Literal.var).Nodup)
    (hknown : ∀ l ∈ ls, l.var ∈ known) :
    ((ls.map (Literal.rename r)).map Literal.var).Nodup := by
  have hinj : ∀ v ∈ ls.map Literal.var, ∀ w ∈ ls.map Literal.var, r v = r w → v = w := by
    intro v hv w hw
    obtain ⟨l, hl, rfl⟩ := List.mem_map.mp hv
    obtain ⟨m, hm, rfl⟩ := List.mem_map.mp hw
    exact hr (hknown l hl) (hknown m hm)
  have hnames := (List.nodup_map_iff_inj_on hnodup).mpr hinj
  rw [List.map_map] at hnames ⊢
  exact hnames

/-- Read as sets of literals, the second clause is the first one renamed. -/
def Clause.RenamedTo (r : Variable → Variable) (c d : Clause) : Prop :=
  ∀ m, m ∈ d.literals ↔ ∃ l ∈ c.literals, l.rename r = m

/-- The second binding makes the renamed literals true that the first one makes true. -/
structure Binding.RenamedTo (r : Variable → Variable) (known : Set Variable) (b c : Binding) :
    Prop where
  known : ∀ l, b.value? l = some true → l.var ∈ known
  value?_iff : ∀ m, c.value? m = some true ↔ ∃ l, b.value? l = some true ∧ l.rename r = m

/-- The second list of clauses is the first one renamed. -/
structure Renaming (r : Variable → Variable) (known : Set Variable) (cs ds : List Clause) :
    Prop where
  increasing : ∀ v ∈ known, ∀ w ∈ known, v.id < w.id → (r v).id < (r w).id
  covers : ∀ c ∈ cs, ∀ l ∈ c.literals, l.var ∈ known
  forth : ∀ c ∈ cs, ∃ d ∈ ds, c.RenamedTo r d
  back : ∀ d ∈ ds, ∃ c ∈ cs, c.RenamedTo r d

variable {r : Variable → Variable} {known : Set Variable} {cs ds : List Clause}

theorem injOn_of_increasing
    (h : ∀ v ∈ known, ∀ w ∈ known, v.id < w.id → (r v).id < (r w).id) : Set.InjOn r known := by
  intro v hv w hw heq
  have hid := congrArg Variable.id heq
  rcases Nat.lt_trichotomy v.id w.id with hlt | hsame | hgt
  · have hless := h v hv w hw hlt
    omega
  · exact Variable.eq_of_id hsame
  · have hless := h w hw v hv hgt
    omega

theorem Renaming.injOn (hr : Renaming r known cs ds) : Set.InjOn r known :=
  injOn_of_increasing hr.increasing

theorem Renaming.le_iff (hr : Renaming r known cs ds) {v w : Variable} (hv : v ∈ known)
    (hw : w ∈ known) : (r v).id ≤ (r w).id ↔ v.id ≤ w.id := by
  constructor
  · intro hle
    by_contra hgt
    have hless := hr.increasing w hw v hv (by omega)
    omega
  · intro hle
    rcases Nat.lt_or_eq_of_le hle with hlt | heq
    · exact (hr.increasing v hv w hw hlt).le
    · rw [Variable.eq_of_id heq]

/-! ## Renamed bindings -/

section

variable {b c : Binding} {l : Literal}

theorem Binding.RenamedTo.value?_rename (h : b.RenamedTo r known c) (hr : Set.InjOn r known)
    (hl : l.var ∈ known) : c.value? (l.rename r) = b.value? l := by
  have htrue : ∀ l : Literal, l.var ∈ known →
      (c.value? (l.rename r) = some true ↔ b.value? l = some true) := by
    intro l hl
    rw [h.value?_iff]
    constructor
    · rintro ⟨m, hm, heq⟩
      rwa [← Literal.eq_of_rename_eq hr (h.known m hm) hl heq]
    · intro hvalue
      exact ⟨l, hvalue, rfl⟩
  apply Option.ext
  intro value
  cases value with
  | true => exact htrue l hl
  | false =>
      have hneg := htrue (-l) hl
      simpa only [Literal.rename_neg, Binding.value?_neg, Bool.not_true] using hneg

theorem Binding.RenamedTo.binds_rename (h : b.RenamedTo r known c) (hr : Set.InjOn r known)
    (hl : l.var ∈ known) : c.binds (r l.var) = b.binds l.var := by
  have hnone : c.binds (l.rename r).var = false ↔ b.binds l.var = false := by
    rw [← Binding.value?_eq_none_iff, ← Binding.value?_eq_none_iff, h.value?_rename hr hl]
  rw [Literal.var_rename] at hnone
  cases hb : b.binds l.var with
  | false => exact hnone.mpr hb
  | true =>
      rw [← Bool.not_eq_false, hnone, hb]
      exact Bool.true_eq_false.mp

end

/-! ## Renamed situations -/

section

variable {b c : Binding} (hr : Renaming r known cs ds) (h : b.RenamedTo r known c)

include hr h

theorem Renaming.open_iff {x y : Clause} (hx : x ∈ cs) (hxy : x.RenamedTo r y) :
    y.Open c ↔ x.Open b := by
  constructor
  · intro hopen l hl
    rw [← h.value?_rename hr.injOn (hr.covers x hx l hl)]
    exact hopen _ ((hxy _).mpr ⟨l, hl, rfl⟩)
  · intro hopen m hm
    obtain ⟨l, hl, rfl⟩ := (hxy m).mp hm
    rw [h.value?_rename hr.injOn (hr.covers x hx l hl)]
    exact hopen l hl

theorem Renaming.evaluate_eq_no_iff {x y : Clause} (hx : x ∈ cs) (hxy : x.RenamedTo r y) :
    y.evaluate c = .no ↔ x.evaluate b = .no := by
  rw [Clause.evaluate_eq_no_iff, Clause.evaluate_eq_no_iff]
  constructor
  · intro hfalse l hl
    rw [← h.value?_rename hr.injOn (hr.covers x hx l hl)]
    exact hfalse _ ((hxy _).mpr ⟨l, hl, rfl⟩)
  · intro hfalse m hm
    obtain ⟨l, hl, rfl⟩ := (hxy m).mp hm
    rw [h.value?_rename hr.injOn (hr.covers x hx l hl)]
    exact hfalse l hl

theorem Renaming.refuted_iff :
    (∃ y ∈ ds, y.evaluate c = .no) ↔ ∃ x ∈ cs, x.evaluate b = .no := by
  constructor
  · rintro ⟨y, hy, hno⟩
    obtain ⟨x, hx, hxy⟩ := hr.back y hy
    exact ⟨x, hx, (hr.evaluate_eq_no_iff h hx hxy).mp hno⟩
  · rintro ⟨x, hx, hno⟩
    obtain ⟨y, hy, hxy⟩ := hr.forth x hx
    exact ⟨y, hy, (hr.evaluate_eq_no_iff h hx hxy).mpr hno⟩

theorem Renaming.confirmed_iff :
    (∀ y ∈ ds, y.evaluate c = .yes) ↔ ∀ x ∈ cs, x.evaluate b = .yes := by
  have hyes : ∀ {x y : Clause}, x ∈ cs → x.RenamedTo r y →
      (y.evaluate c = .yes ↔ x.evaluate b = .yes) := by
    intro x y hx hxy
    have hopen := hr.open_iff h hx hxy
    rw [Clause.open_iff_evaluate_ne_yes, Clause.open_iff_evaluate_ne_yes] at hopen
    exact not_iff_not.mp hopen
  constructor
  · intro hall x hx
    obtain ⟨y, hy, hxy⟩ := hr.forth x hx
    exact (hyes hx hxy).mp (hall y hy)
  · intro hall y hy
    obtain ⟨x, hx, hxy⟩ := hr.back y hy
    exact (hyes hx hxy).mpr (hall x hx)

theorem Renaming.remains_iff {m : Literal} :
    Remains ds c m ↔ ∃ l, Remains cs b l ∧ l.rename r = m := by
  constructor
  · rintro ⟨hunbound, y, hy, hopen, hm⟩
    obtain ⟨x, hx, hxy⟩ := hr.back y hy
    obtain ⟨l, hl, rfl⟩ := (hxy m).mp hm
    rw [Literal.var_rename, h.binds_rename hr.injOn (hr.covers x hx l hl)] at hunbound
    exact ⟨l, ⟨hunbound, x, hx, (hr.open_iff h hx hxy).mp hopen, hl⟩, rfl⟩
  · rintro ⟨l, ⟨hunbound, x, hx, hopen, hl⟩, rfl⟩
    obtain ⟨y, hy, hxy⟩ := hr.forth x hx
    refine ⟨?_, y, hy, (hr.open_iff h hx hxy).mpr hopen, (hxy _).mpr ⟨l, hl, rfl⟩⟩
    rw [Literal.var_rename, h.binds_rename hr.injOn (hr.covers x hx l hl)]
    exact hunbound

theorem Renaming.forces_iff {x y : Clause} (hx : x ∈ cs) (hxy : x.RenamedTo r y) {l : Literal}
    (hl : l ∈ x.literals) : y.Forces c (l.rename r) ↔ x.Forces b l := by
  have hknown := hr.covers x hx
  unfold Clause.Forces
  rw [hr.open_iff h hx hxy]
  refine and_congr_right fun _ => and_congr ?_ ?_
  · exact ⟨fun _ => hl, fun _ => (hxy _).mpr ⟨l, hl, rfl⟩⟩
  · constructor
    · intro honly k hk
      have hsame := honly (k.rename r) ((hxy _).mpr ⟨k, hk, rfl⟩)
      rw [Literal.var_rename, h.binds_rename hr.injOn (hknown k hk)] at hsame
      rw [hsame]
      exact ⟨Literal.eq_of_rename_eq hr.injOn (hknown k hk) (hknown l hl), congrArg _⟩
    · intro honly m hm
      obtain ⟨k, hk, rfl⟩ := (hxy m).mp hm
      rw [Literal.var_rename, h.binds_rename hr.injOn (hknown k hk), honly k hk]
      exact ⟨congrArg _, Literal.eq_of_rename_eq hr.injOn (hknown k hk) (hknown l hl)⟩

theorem Renaming.forced_iff {m : Literal} :
    Forced ds c m ↔ ∃ l, Forced cs b l ∧ l.rename r = m := by
  constructor
  · rintro ⟨y, hy, hforces⟩
    obtain ⟨x, hx, hxy⟩ := hr.back y hy
    obtain ⟨l, hl, rfl⟩ := (hxy m).mp hforces.2.1
    exact ⟨l, ⟨x, hx, (hr.forces_iff h hx hxy hl).mp hforces⟩, rfl⟩
  · rintro ⟨l, ⟨x, hx, hforces⟩, rfl⟩
    obtain ⟨y, hy, hxy⟩ := hr.forth x hx
    exact ⟨y, hy, (hr.forces_iff h hx hxy hforces.2.1).mpr hforces⟩

omit h in
theorem Renaming.known_of_remains {l : Literal} (hl : Remains cs b l) : l.var ∈ known := by
  obtain ⟨_, x, hx, _, hmem⟩ := hl
  exact hr.covers x hx l hmem

theorem Renaming.pure_iff {m : Literal} :
    Pure ds c m ↔ ∃ l, Pure cs b l ∧ l.rename r = m := by
  have hopposite : ∀ {l : Literal}, Remains cs b l →
      (Remains ds c (-l.rename r) ↔ Remains cs b (-l)) := by
    intro l hl
    have hvar := hr.known_of_remains hl
    rw [hr.remains_iff h]
    constructor
    · rintro ⟨k, hk, heq⟩
      have hopposite : k = -l :=
        Literal.eq_of_rename_eq hr.injOn (hr.known_of_remains hk) hvar heq
      rwa [← hopposite]
    · intro hneg
      exact ⟨-l, hneg, rfl⟩
  unfold Pure
  rw [hr.remains_iff h]
  constructor
  · rintro ⟨⟨l, hl, rfl⟩, hnone⟩
    exact ⟨l, ⟨hl, fun hneg => hnone ((hopposite hl).mpr hneg)⟩, rfl⟩
  · rintro ⟨l, ⟨hl, hnone⟩, rfl⟩
    exact ⟨⟨l, hl, rfl⟩, fun hneg => hnone ((hopposite hl).mp hneg)⟩

end

namespace Branch

variable {b c : Branch}

/-! ## Branches that correspond -/

/-- The branches of two lists of clauses that the same decisions and the same batches of
inferences, renamed, lead to. -/
inductive Renamed (r : Variable → Variable) (known : Set Variable) (cs ds : List Clause) :
    Branch → Branch → Prop
  | root : Renamed r known cs ds (root cs) (root ds)
  | inferred {b c above beyond : Branch} {ls ms : List Literal} (h : Renamed r known cs ds b c)
      (hknown : ∀ l ∈ ls, l.var ∈ known) (hperm : (ls.map (Literal.rename r)).Perm ms)
      (habove : b.assignAll ls .inference = .ok above)
      (hbeyond : c.assignAll ms .inference = .ok beyond) : Renamed r known cs ds above beyond
  | decided {b c above beyond : Branch} {l : Literal} {flipped : Bool}
      (h : Renamed r known cs ds b c) (hknown : l.var ∈ known)
      (habove : b.assign l (.decision flipped) = .ok above)
      (hbeyond : c.assign (l.rename r) (.decision flipped) = .ok beyond) :
      Renamed r known cs ds above beyond

theorem Renamed.of_left (h : Renamed r known cs ds b c) : Of cs b := by
  induction h with
  | root => exact .root
  | inferred _ _ _ habove _ ih => exact ih.of_assignAll habove
  | decided _ _ habove _ ih => exact ih.assign habove

theorem Renamed.of_right (h : Renamed r known cs ds b c) : Of ds c := by
  induction h with
  | root => exact .root
  | inferred _ _ _ _ hbeyond ih => exact ih.of_assignAll hbeyond
  | decided _ _ _ hbeyond ih => exact ih.assign hbeyond

theorem Renamed.binding (h : Renamed r known cs ds b c) :
    b.binding.RenamedTo r known c.binding := by
  induction h with
  | root =>
      have hempty : ∀ (clauses : List Clause) (l : Literal),
          (Branch.root clauses).binding.value? l ≠ some true := by
        intro clauses l
        simp [Branch.root, Binding.value?, Binding.get?, Binding.empty]
      refine ⟨fun l hl => absurd hl (hempty cs l), fun m => ?_⟩
      simp [hempty]
  | inferred h hknown hperm habove hbeyond ih =>
      constructor
      · intro l hl
        rcases (h.of_left.value?_assignAll habove).mp hl with hl | hl
        · exact hknown l hl
        · exact ih.known l hl
      · intro m
        simp only [h.of_left.value?_assignAll habove, h.of_right.value?_assignAll hbeyond,
          ih.value?_iff, ← hperm.mem_iff, List.mem_map, or_and_right, exists_or]
  | decided h hknown habove hbeyond ih =>
      obtain ⟨_, hleft, _⟩ := h.of_left.assign_eq_ok habove
      obtain ⟨_, hright, _⟩ := h.of_right.assign_eq_ok hbeyond
      rw [hleft, hright]
      constructor
      · intro l hl
        rcases (Binding.value?_assign_eq_true_iff (assign_eq_ok habove)).mp hl with rfl | hl
        · exact hknown
        · exact ih.known l hl
      · intro m
        simp only [Binding.value?_assign_eq_true_iff (assign_eq_ok habove),
          Binding.value?_assign_eq_true_iff (assign_eq_ok hbeyond), ih.value?_iff, or_and_right,
          exists_or, exists_eq_left]
        exact or_congr_left eq_comm

theorem Renamed.level_eq (h : Renamed r known cs ds b c) : b.level = c.level := by
  induction h with
  | root => rfl
  | inferred h _ _ habove hbeyond ih =>
      rw [h.of_left.level_assignAll habove, h.of_right.level_assignAll hbeyond, ih]
  | decided h _ habove hbeyond ih =>
      rw [h.of_left.level_assign habove, h.of_right.level_assign hbeyond, ih]

theorem Renamed.unwind (h : Renamed r known cs ds b c) :
    (b.unwind = .ok (none, Branch.root cs) ∧ c.unwind = .ok (none, Branch.root ds)) ∨
      ∃ l before below, b.unwind = .ok (some l, before) ∧
        c.unwind = .ok (some (l.rename r), below) ∧ l.var ∈ known ∧
        before.binding.binds l.var = false ∧ Renamed r known cs ds before below := by
  induction h with
  | root => exact Or.inl ⟨rfl, rfl⟩
  | inferred h _ _ habove hbeyond ih =>
      rw [h.of_left.unwind_assignAll habove, h.of_right.unwind_assignAll hbeyond]
      exact ih
  | @decided b c above beyond l flipped h hknown habove hbeyond ih =>
      rw [h.of_left.unwind_assign habove, h.of_right.unwind_assign hbeyond]
      cases flipped with
      | false => exact Or.inr ⟨l, b, c, rfl, rfl, hknown, Branch.assign_eq_ok habove, h⟩
      | true => exact ih

section

variable (hr : Renaming r known cs ds)

include hr

theorem Renamed.infer (h : Renamed r known cs ds b c) {ls ms : List Literal}
    (hperm : (ls.map (Literal.rename r)).Perm ms) (hnodup : (ls.map Literal.var).Nodup)
    (hremains : ∀ l ∈ ls, Remains cs b.binding l) :
    ∃ above beyond, b.assignAll ls .inference = .ok above ∧
      c.assignAll ms .inference = .ok beyond ∧ Renamed r known cs ds above beyond := by
  have hknown : ∀ l ∈ ls, l.var ∈ known := fun l hl => hr.known_of_remains (hremains l hl)
  obtain ⟨above, habove⟩ :=
    h.of_left.assignAll_exists hnodup (fun l hl => (hremains l hl).1) .inference
  obtain ⟨beyond, hbeyond⟩ : ∃ beyond, c.assignAll ms .inference = .ok beyond := by
    apply h.of_right.assignAll_exists
    · exact (hperm.map Literal.var).nodup_iff.mp (nodup_map_var_rename hr.injOn hnodup hknown)
    · intro m hm
      obtain ⟨l, hl, rfl⟩ := List.mem_map.mp (hperm.mem_iff.mpr hm)
      rw [Literal.var_rename, h.binding.binds_rename hr.injOn (hknown l hl)]
      exact (hremains l hl).1
  exact ⟨above, beyond, habove, hbeyond, .inferred h hknown hperm habove hbeyond⟩

theorem Renamed.choose (h : Renamed r known cs ds b c) {l : Literal} (hknown : l.var ∈ known)
    (hl : b.binding.binds l.var = false) (flipped : Bool) :
    ∃ above beyond, b.assign l (.decision flipped) = .ok above ∧
      c.assign (l.rename r) (.decision flipped) = .ok beyond ∧
      Renamed r known cs ds above beyond := by
  obtain ⟨above, _, habove, _⟩ := h.of_left.assign_exists hl (.decision flipped)
  have hother : c.binding.binds (l.rename r).var = false := by
    rw [Literal.var_rename, h.binding.binds_rename hr.injOn hknown]
    exact hl
  obtain ⟨beyond, _, hbeyond, _⟩ := h.of_right.assign_exists hother (.decision flipped)
  exact ⟨above, beyond, habove, hbeyond, .decided h hknown habove hbeyond⟩

/-! ## The renamed answers -/

theorem Renamed.hasFalsified_eq (h : Renamed r known cs ds b c) :
    b.hasFalsified = c.hasFalsified := by
  rw [Bool.eq_iff_iff, h.of_left.hasFalsified_iff, h.of_right.hasFalsified_iff,
    hr.refuted_iff h.binding]

theorem Renamed.isSatisfied_eq (h : Renamed r known cs ds b c) :
    b.isSatisfied = c.isSatisfied := by
  rw [Bool.eq_iff_iff, h.of_left.isSatisfied_iff, h.of_right.isSatisfied_iff,
    hr.confirmed_iff h.binding]

/-- Lists of literals without repetitions correspond if their elements do. -/
theorem perm_of_mem_iff {ls ms : List Literal} (hls : (ls.map Literal.var).Nodup)
    (hms : (ms.map Literal.var).Nodup) (hknown : ∀ l ∈ ls, l.var ∈ known)
    (hsame : ∀ m, m ∈ ms ↔ ∃ l, l ∈ ls ∧ l.rename r = m) :
    (ls.map (Literal.rename r)).Perm ms := by
  have hnodup := nodup_map_rename hr.injOn (List.Nodup.of_map _ hls) hknown
  apply (List.perm_ext_iff_of_nodup hnodup (List.Nodup.of_map _ hms)).mpr
  intro m
  rw [hsame, List.mem_map]

theorem Renamed.unitLiterals (h : Renamed r known cs ds b c) :
    (b.unitLiterals = .ok none ∧ c.unitLiterals = .ok none) ∨
      ∃ ls ms, b.unitLiterals = .ok (some ls) ∧ c.unitLiterals = .ok (some ms) ∧
        (ls.map (Literal.rename r)).Perm ms := by
  have hsame : ∀ m, Forced ds c.binding m ↔ ∃ l, Forced cs b.binding l ∧ l.rename r = m :=
    fun _ => hr.forced_iff h.binding
  have hknown : ∀ l, Forced cs b.binding l → l.var ∈ known :=
    fun l hl => hr.known_of_remains hl.remains
  obtain ⟨hb, l, hl, hneg⟩ | ⟨ls, hb, hlsNodup, hls, hlsClear⟩ := h.of_left.unitLiterals_cases
  · obtain ⟨hc, _⟩ | ⟨_, _, _, _, hclear⟩ := h.of_right.unitLiterals_cases
    · exact Or.inl ⟨hb, hc⟩
    · exact absurd ((hsame _).mpr ⟨-l, hneg, rfl⟩) (hclear _ ((hsame _).mpr ⟨l, hl, rfl⟩))
  · obtain ⟨_, m, hm, hneg⟩ | ⟨ms, hc, hmsNodup, hms, _⟩ := h.of_right.unitLiterals_cases
    · obtain ⟨l, hl, rfl⟩ := (hsame m).mp hm
      obtain ⟨k, hk, heq⟩ := (hsame _).mp hneg
      have hopposite : k = -l :=
        Literal.eq_of_rename_eq hr.injOn (hknown k hk) (hknown l hl) heq
      exact absurd (hopposite ▸ hk) (hlsClear l hl)
    · refine Or.inr ⟨ls, ms, hb, hc, perm_of_mem_iff hr hlsNodup hmsNodup ?_ ?_⟩
      · intro l hl
        exact hknown l ((hls l).mp hl)
      · intro m
        simp only [hls, hms, hsame]

theorem Renamed.pureLiterals_perm (h : Renamed r known cs ds b c) :
    (b.pureLiterals.map (Literal.rename r)).Perm c.pureLiterals := by
  apply perm_of_mem_iff hr h.of_left.nodup_pureLiterals h.of_right.nodup_pureLiterals
  · intro l hl
    exact hr.known_of_remains (h.of_left.mem_pureLiterals.mp hl).1
  · intro m
    simp only [h.of_left.mem_pureLiterals, h.of_right.mem_pureLiterals, hr.pure_iff h.binding]

theorem Renamed.nextVariable?_eq (h : Renamed r known cs ds b c) :
    c.nextVariable? = b.nextVariable?.map r := by
  have hsame : ∀ m, Remains ds c.binding m ↔ ∃ l, Remains cs b.binding l ∧ l.rename r = m :=
    fun _ => hr.remains_iff h.binding
  cases hb : b.nextVariable? with
  | none =>
      rw [Option.map_none, h.of_right.nextVariable?_eq_none_iff]
      intro m hm
      obtain ⟨l, hl, _⟩ := (hsame m).mp hm
      exact h.of_left.nextVariable?_eq_none_iff.mp hb l hl
  | some v =>
      obtain ⟨⟨l, rfl, hl⟩, hleast⟩ := h.of_left.nextVariable?_eq_some hb
      have hother : Remains ds c.binding (l.rename r) := (hsame _).mpr ⟨l, hl, rfl⟩
      cases hc : c.nextVariable? with
      | none => exact absurd hother (h.of_right.nextVariable?_eq_none_iff.mp hc _)
      | some w =>
          obtain ⟨⟨m, rfl, hm⟩, hfirst⟩ := h.of_right.nextVariable?_eq_some hc
          obtain ⟨k, hk, rfl⟩ := (hsame m).mp hm
          have hle : l.var.id ≤ k.var.id := hleast k hk
          rw [← hr.le_iff (hr.known_of_remains hl) (hr.known_of_remains hk)] at hle
          exact congrArg some (Variable.eq_of_id (Nat.le_antisymm (hfirst _ hother) hle))

theorem Renamed.size_eq (h : Renamed r known cs ds b c) :
    b.formula.index.size = c.formula.index.size := by
  rw [← OccurrenceIndex.length_literals, ← OccurrenceIndex.length_literals]
  have hperm : (b.formula.index.literals.map (Literal.rename r)).Perm
      c.formula.index.literals := by
    have hknown : ∀ l ∈ b.formula.index.literals, l.var ∈ known := by
      intro l hl
      rw [OccurrenceIndex.mem_literals, h.of_left.records_iff_remains] at hl
      exact hr.known_of_remains hl
    have hnodup := nodup_map_rename hr.injOn (OccurrenceIndex.nodup_literals _) hknown
    apply (List.perm_ext_iff_of_nodup hnodup (OccurrenceIndex.nodup_literals _)).mpr
    intro m
    simp only [List.mem_map, OccurrenceIndex.mem_literals, h.of_left.records_iff_remains,
      h.of_right.records_iff_remains, hr.remains_iff h.binding]
  rw [← hperm.length_eq, List.length_map]

end

end Branch

end SatSearch
