import Mathlib.Data.Option.Basic

/-!
# Computations that need not end

A computation that is bounded by fuel is a family, one computation for each amount of fuel. More
fuel must not change an answer (`Steady`). The *limit* of such a family is what it comes to when
there is fuel enough, and nothing when there never is.

Limits respect sequencing (`lim_bind`) and loops: two loops whose rounds correspond come to
corresponding ends (`rel_lim_rounds`). In particular the one ends exactly when the other does.
-/

namespace StackCode

/-- Errors, one of which says that the fuel is used up. -/
class Fuelled (ε : Type) where
  outOfFuel : ε

/-- A computation that gives no result when it does not end. -/
abbrev Partial (ε σ α : Type) : Type := σ → Option (EStateM.Result ε σ α)

/-- One computation and then, unless it stopped with an error, another one. -/
def Partial.bind {ε σ α β : Type} (p : Partial ε σ α) (f : α → Partial ε σ β) : Partial ε σ β :=
  fun s => (p s).bind fun
    | .ok a s' => f a s'
    | .error e s' => some (.error e s')

variable {ε ε' σ τ α β γ : Type}

theorem Partial.bind_assoc (p : Partial ε σ α) (f : α → Partial ε σ β) (g : β → Partial ε σ γ) :
    (p.bind f).bind g = p.bind fun a => (f a).bind g := by
  funext s
  unfold Partial.bind
  cases p s with
  | none => rfl
  | some r => cases r <;> rfl

theorem Partial.bind_of_eq_ok {p : Partial ε σ α} {f : α → Partial ε σ β} {s s' : σ} {a : α}
    (h : p s = some (.ok a s')) : p.bind f s = f a s' := by
  unfold Partial.bind
  rw [h]
  rfl

theorem Partial.bind_of_eq_error {p : Partial ε σ α} {f : α → Partial ε σ β} {s s' : σ} {e : ε}
    (h : p s = some (.error e s')) : p.bind f s = some (.error e s') := by
  unfold Partial.bind
  rw [h]
  rfl

/-! ## More fuel -/

section

variable [Fuelled ε] [Fuelled ε']

/-- The fuel was used up. -/
def RanOut (r : EStateM.Result ε σ α) : Prop := ∃ s, r = .error Fuelled.outOfFuel s

theorem not_ranOut_ok (a : α) (s : σ) : ¬ RanOut (.ok a s : EStateM.Result ε σ α) :=
  fun ⟨_, h⟩ => nomatch h

/-- Of the errors one stands for the end of the fuel. -/
theorem ranOut_error_iff {e : ε} {s : σ} :
    RanOut (.error e s : EStateM.Result ε σ α) ↔ e = Fuelled.outOfFuel := by
  constructor
  · rintro ⟨t, ht⟩
    exact (EStateM.Result.error.inj ht).1
  · rintro rfl
    exact ⟨s, rfl⟩

/-- `m'` gives the answers of `m`, and perhaps more of them. -/
def Improves (m m' : EStateM ε σ α) : Prop := ∀ s, RanOut (m s) ∨ m' s = m s

theorem improves_refl (m : EStateM ε σ α) : Improves m m := fun _ => .inr rfl

theorem improves_outOfFuel (m : EStateM ε σ α) : Improves (throw Fuelled.outOfFuel) m :=
  fun s => .inl ⟨s, rfl⟩

theorem Improves.trans {m m' m'' : EStateM ε σ α} (h : Improves m m') (h' : Improves m' m'') :
    Improves m m'' := by
  intro s
  rcases h s with h | h
  · exact .inl h
  · rcases h' s with h' | h'
    · exact .inl (h ▸ h')
    · exact .inr (h'.trans h)

theorem Improves.bind {m m' : EStateM ε σ α} {f f' : α → EStateM ε σ β} (h : Improves m m')
    (hf : ∀ a, Improves (f a) (f' a)) : Improves (m >>= f) (m' >>= f') := by
  intro s
  show RanOut (EStateM.bind m f s) ∨ EStateM.bind m' f' s = EStateM.bind m f s
  unfold EStateM.bind
  rcases h s with ⟨s', h⟩ | h
  · exact .inl ⟨s', by rw [h]⟩
  · rw [h]
    cases m s with
    | ok a s' => exact hf a s'
    | error e s' => exact .inr rfl

/-- A change of the result that leaves it open whether the fuel was used up. -/
theorem Improves.mapResult {m m' : EStateM ε σ α}
    {g : EStateM.Result ε σ α → EStateM.Result ε σ β} (h : Improves m m')
    (hg : ∀ r, RanOut r → RanOut (g r)) : Improves (fun s => g (m s)) fun s => g (m' s) := by
  intro s
  rcases h s with h | h
  · exact .inl (hg _ h)
  · exact .inr (congrArg g h)

/-- More fuel does not change an answer. -/
def Steady (f : Nat → EStateM ε σ α) : Prop := ∀ n, Improves (f n) (f (n + 1))

theorem steady_const (m : EStateM ε σ α) : Steady fun _ => m := fun _ => improves_refl m

theorem Steady.bind {f : Nat → EStateM ε σ α} {g : α → Nat → EStateM ε σ β} (hf : Steady f)
    (hg : ∀ a, Steady (g a)) : Steady fun n => f n >>= fun a => g a n :=
  fun n => (hf n).bind fun a => hg a n

theorem Steady.mapResult {f : Nat → EStateM ε σ α}
    {g : EStateM.Result ε σ α → EStateM.Result ε σ β} (hf : Steady f)
    (hg : ∀ r, RanOut r → RanOut (g r)) : Steady fun n s => g (f n s) :=
  fun n => (hf n).mapResult hg

theorem Steady.improves {f : Nat → EStateM ε σ α} (hf : Steady f) {n m : Nat} (h : n ≤ m) :
    Improves (f n) (f m) := by
  induction h with
  | refl => exact improves_refl _
  | step _ ih => exact ih.trans (hf _)

/-- **An answer is final.** -/
theorem Steady.eq_of_le {f : Nat → EStateM ε σ α} (hf : Steady f) {n m : Nat} (hle : n ≤ m) {s : σ}
    (h : ¬ RanOut (f n s)) : f m s = f n s :=
  (hf.improves hle s).resolve_left h

/-! ## Limits -/

/-- A result for which the fuel was enough. -/
noncomputable def limit (r : Nat → EStateM.Result ε σ α) : Option (EStateM.Result ε σ α) :=
  open scoped Classical in
  if h : ∃ n, ¬ RanOut (r n) then some (r (Classical.choose h)) else none

/-- What the family comes to with fuel enough. -/
noncomputable def lim (f : Nat → EStateM ε σ α) : Partial ε σ α := fun s => limit fun n => f n s

theorem lim_eq_of_eq {f g : Nat → EStateM ε σ α} {s s' : σ} (h : ∀ n, f n s = g n s') :
    lim f s = lim g s' :=
  congrArg limit (funext h)

/-- The limit is the answer that some amount of fuel gives. -/
theorem lim_eq_some_iff {f : Nat → EStateM ε σ α} (hf : Steady f) {s : σ}
    {r : EStateM.Result ε σ α} : lim f s = some r ↔ ∃ n, f n s = r ∧ ¬ RanOut r := by
  unfold lim limit
  split
  · rename_i h
    have hend := Classical.choose_spec h
    refine ⟨fun heq => ⟨_, Option.some.inj heq, Option.some.inj heq ▸ hend⟩, ?_⟩
    rintro ⟨n, rfl, hn⟩
    -- both amounts of fuel suffice, so that the greater one gives the answer of either
    rcases Nat.le_total n (Classical.choose h) with hle | hle
    · exact congrArg some (hf.eq_of_le hle hn)
    · exact congrArg some (hf.eq_of_le hle hend).symm
  · rename_i h
    refine ⟨fun heq => (nomatch heq), ?_⟩
    rintro ⟨n, rfl, hn⟩
    exact absurd ⟨n, hn⟩ h

theorem lim_eq_some {f : Nat → EStateM ε σ α} (hf : Steady f) {s : σ} {n : Nat}
    {r : EStateM.Result ε σ α} (h : f n s = r) (hr : ¬ RanOut r) : lim f s = some r :=
  (lim_eq_some_iff hf).mpr ⟨n, h, hr⟩

/-- Two families that come to the same answers have the same limit. -/
theorem lim_congr {f : Nat → EStateM ε σ α} {g : Nat → EStateM ε τ β} {s : σ} {s' : τ}
    (hf : Steady f) (hg : Steady g)
    (φ : EStateM.Result ε τ β → EStateM.Result ε σ α) (hφ : ∀ r, RanOut (φ r) ↔ RanOut r)
    (h : ∀ n, f (n + 1) s = φ (g n s')) : lim f s = (lim g s').map φ := by
  ext r
  rw [lim_eq_some_iff hf, Option.map_eq_some_iff]
  constructor
  · rintro ⟨n, rfl, hr⟩
    have hn : f (n + 1) s = f n s := hf.eq_of_le (Nat.le_succ n) hr
    have hg' : ¬ RanOut (g n s') := by
      rw [← hφ, ← h, hn]
      exact hr
    exact ⟨g n s', lim_eq_some hg rfl hg', by rw [← h, hn]⟩
  · rintro ⟨q, hq, rfl⟩
    obtain ⟨n, rfl, hn⟩ := (lim_eq_some_iff hg).mp hq
    exact ⟨n + 1, h n, mt (hφ _).mp hn⟩

/-- A family that does, after one step, what another one does. -/
theorem lim_eq_of_step {f g : Nat → EStateM ε σ α} {s s' : σ} (hf : Steady f) (hg : Steady g)
    (h : ∀ n, f (n + 1) s = g n s') : lim f s = lim g s' := by
  rw [lim_congr hf hg id (fun _ => .rfl) h]
  exact Option.map_id_apply

/-- **The limit of a sequence** is the sequence of the limits. -/
theorem lim_bind {f : Nat → EStateM ε σ α} {g : α → Nat → EStateM ε σ β} (hf : Steady f)
    (hg : ∀ a, Steady (g a)) :
    lim (fun n => f n >>= fun a => g a n) = (lim f).bind fun a => lim (g a) := by
  funext s
  ext r
  rw [lim_eq_some_iff (hf.bind hg)]
  show (∃ n, EStateM.bind (f n) (fun a => g a n) s = r ∧ ¬ RanOut r) ↔
    Option.bind (lim f s) _ = some r
  constructor
  · rintro ⟨n, rfl, hr⟩
    unfold EStateM.bind at hr ⊢
    cases hfn : f n s with
    | ok a s' =>
      rw [hfn] at hr
      rw [lim_eq_some hf hfn (not_ranOut_ok a s')]
      exact lim_eq_some (hg a) rfl hr
    | error e s' =>
      rw [hfn] at hr
      rw [lim_eq_some hf hfn (mt ranOut_error_iff.mp (mt ranOut_error_iff.mpr hr))]
      rfl
  · intro h
    obtain ⟨q, hq, h⟩ := Option.bind_eq_some_iff.mp h
    obtain ⟨n, hn, hend⟩ := (lim_eq_some_iff hf).mp hq
    cases q with
    | error e s' =>
      cases h
      refine ⟨n, ?_, mt ranOut_error_iff.mp (mt ranOut_error_iff.mpr hend)⟩
      unfold EStateM.bind
      rw [hn]
    | ok a s' =>
      obtain ⟨m, rfl, hr⟩ := (lim_eq_some_iff (hg a)).mp h
      -- the greater of the two amounts does for both parts
      have hfirst := hf.eq_of_le (Nat.le_max_left n m) (hn ▸ hend)
      have hsecond := (hg a).eq_of_le (Nat.le_max_right n m) hr
      refine ⟨max n m, ?_, hr⟩
      unfold EStateM.bind
      rw [hfirst, hn]
      exact hsecond

/-- A computation without fuel that ends. -/
theorem lim_const {m : EStateM ε σ α} {s : σ} {r : EStateM.Result ε σ α} (h : m s = r)
    (hr : ¬ RanOut r) : lim (fun _ => m) s = some r :=
  lim_eq_some (n := 0) (steady_const m) h hr

theorem lim_get_bind (f : Nat → σ → EStateM ε σ α) (s : σ) :
    lim (fun n => get >>= f n) s = lim (fun n => f n s) s :=
  rfl

/-- A change of the outcome commutes with the limit. -/
theorem lim_mapResult {f : Nat → EStateM ε σ α}
    {g : EStateM.Result ε σ α → EStateM.Result ε σ β} (hf : Steady f)
    (hg : ∀ r, RanOut (g r) ↔ RanOut r) (s : σ) :
    lim (fun n s => g (f n s)) s = (lim f s).map g := by
  ext r
  rw [lim_eq_some_iff (hf.mapResult fun r => (hg r).mpr), Option.map_eq_some_iff]
  constructor
  · rintro ⟨n, rfl, hr⟩
    exact ⟨_, lim_eq_some hf rfl (mt (hg _).mpr hr), rfl⟩
  · rintro ⟨q, hq, rfl⟩
    obtain ⟨n, rfl, hn⟩ := (lim_eq_some_iff hf).mp hq
    exact ⟨n, rfl, mt (hg _).mp hn⟩

/-! ## Loops -/

/-- Round after round, at most `n` of them, until one gives a result. -/
def rounds (round : EStateM ε σ (Option α)) : Nat → EStateM ε σ α
  | 0 => throw Fuelled.outOfFuel
  | n + 1 => do
    match ← round with
    | none => rounds round n
    | some a => return a

/-- A loop improves with its rounds. -/
theorem improves_rounds {r r' : EStateM ε σ (Option α)} (h : Improves r r') {n n' : Nat}
    (hn : n ≤ n') : Improves (rounds r n) (rounds r' n') := by
  induction n generalizing n' with
  | zero => exact improves_outOfFuel _
  | succ n ih =>
    obtain ⟨n', rfl⟩ : ∃ k, n' = k + 1 := ⟨n' - 1, by omega⟩
    refine h.bind fun a => ?_
    cases a with
    | none => exact ih (by omega)
    | some a => exact improves_refl _

theorem Steady.rounds {r : Nat → EStateM ε σ (Option α)} (hr : Steady r) :
    Steady fun n => rounds (r n) n :=
  fun n => improves_rounds (hr n) (Nat.le_succ n)

/-- What is left of a loop after a round: the state in which the next round starts, or the end. -/
def afterRound : EStateM.Result ε σ (Option α) → σ ⊕ EStateM.Result ε σ α
  | .ok none s => .inl s
  | .ok (some a) s => .inr (.ok a s)
  | .error e s => .inr (.error e s)

theorem not_ranOut_afterRound {q : EStateM.Result ε σ (Option α)} {r : EStateM.Result ε σ α}
    (hq : ¬ RanOut q) (h : afterRound q = .inr r) : ¬ RanOut r := by
  rcases q with ⟨_ | a, s⟩ | ⟨e, s⟩ <;> cases h
  · exact not_ranOut_ok a s
  · rw [ranOut_error_iff] at hq ⊢
    exact hq

/-- The first round of a loop that has one left. -/
theorem rounds_succ (round : EStateM ε σ (Option α)) (n : Nat) (s : σ) :
    rounds round (n + 1) s = (afterRound (round s)).elim (rounds round n) id := by
  show EStateM.bind round _ s = _
  unfold EStateM.bind
  rcases round s with ⟨_ | a, s'⟩ | ⟨e, s'⟩ <;> rfl

/-- The first round, in the limit. -/
theorem lim_rounds {r : Nat → EStateM ε σ (Option α)} (hr : Steady r) {s : σ}
    {q : EStateM.Result ε σ (Option α)} (h : lim r s = some q) :
    lim (fun n => rounds (r n) n) s =
      (afterRound q).elim (lim fun n => rounds (r n) n) some := by
  obtain ⟨n, rfl, hn⟩ := (lim_eq_some_iff hr).mp h
  cases hq : afterRound (r n s) with
  | inr x =>
    refine lim_eq_some (n := n + 1) hr.rounds ?_ (not_ranOut_afterRound hn hq)
    rw [rounds_succ, hr.eq_of_le (Nat.le_succ n) hn, hq]
    rfl
  | inl s' =>
    ext x
    rw [lim_eq_some_iff hr.rounds]
    show _ ↔ lim _ s' = some x
    rw [lim_eq_some_iff hr.rounds]
    have hround : ∀ m, n ≤ m → afterRound (r m s) = .inl s' := fun m hm => by
      rw [hr.eq_of_le hm hn, hq]
    constructor
    · rintro ⟨m, rfl, hm⟩
      -- with the fuel `max n m` the first round takes place, and less by one is left after it
      refine ⟨max n m, ?_, hm⟩
      have hmore := hr.rounds.eq_of_le (Nat.le_max_right n m) hm
      have hyet := improves_rounds (improves_refl (r (max n m))) (Nat.le_succ (max n m)) s
      have hthis := hyet.resolve_left (hmore ▸ hm)
      rw [rounds_succ, hround _ (Nat.le_max_left n m)] at hthis
      exact hthis.trans hmore
    · rintro ⟨m, rfl, hm⟩
      refine ⟨max n m + 1, ?_, hm⟩
      have hle : max n m ≤ max n m + 1 := Nat.le_succ _
      rw [rounds_succ, hround _ (Nat.le_trans (Nat.le_max_left n m) hle)]
      refine (improves_rounds (hr.improves ?_) (Nat.le_max_right n m) s').resolve_left hm
      exact Nat.le_trans (Nat.le_max_right n m) hle

/-- Rounds that correspond: both loops go on, in corresponding states, or both end. -/
def SameRound (I : σ → τ → Prop) (Q : EStateM.Result ε σ α → EStateM.Result ε' τ β → Prop)
    (r : EStateM.Result ε σ (Option α)) (r' : EStateM.Result ε' τ (Option β)) : Prop :=
  match afterRound r, afterRound r' with
  | .inl s, .inl s' => I s s'
  | .inr x, .inr x' => Q x x'
  | _, _ => False

omit [Fuelled ε] [Fuelled ε'] in
theorem SameRound.flip {I : σ → τ → Prop} {Q : EStateM.Result ε σ α → EStateM.Result ε' τ β → Prop}
    {r : EStateM.Result ε σ (Option α)} {r' : EStateM.Result ε' τ (Option β)}
    (h : SameRound I Q r r') : SameRound (fun t s => I s t) (fun y x => Q x y) r' r := by
  unfold SameRound at *
  cases h₁ : afterRound r <;> cases h₂ : afterRound r' <;> rw [h₁, h₂] at h <;> exact h

/-- When the rounds of the one loop have come to an end, so have those of the other. The induction
is on the rounds that the one has made. -/
theorem exists_lim_rounds {r : Nat → EStateM ε σ (Option α)} {r' : Nat → EStateM ε' τ (Option β)}
    {I : σ → τ → Prop} {Q : EStateM.Result ε σ α → EStateM.Result ε' τ β → Prop} (hr : Steady r)
    (hr' : Steady r')
    (h : ∀ s t q, I s t → lim r s = some q → ∃ q', lim r' t = some q' ∧ SameRound I Q q q')
    (n k : Nat) {s : σ} {t : τ} (hI : I s t) (hend : ¬ RanOut (rounds (r n) k s)) :
    ∃ y, lim (fun n => rounds (r' n) n) t = some y ∧ Q (rounds (r n) k s) y := by
  induction k generalizing s t with
  | zero => exact absurd ⟨s, rfl⟩ hend
  | succ k ih =>
    rw [rounds_succ] at hend ⊢
    have hround : ¬ RanOut (r n s) := by
      rintro ⟨s', hs'⟩
      rw [hs'] at hend
      exact hend ⟨s', rfl⟩
    obtain ⟨q', hq', hsame⟩ := h s t _ hI (lim_eq_some hr rfl hround)
    rw [lim_rounds hr' hq']
    unfold SameRound at hsame
    split at hsame
    · rename_i s' t' hs' ht'
      rw [hs'] at hend ⊢
      rw [ht']
      exact ih hsame hend
    · rename_i x y hx hy
      rw [hx, hy]
      exact ⟨y, rfl, hsame⟩
    · exact hsame.elim

/-- A relation between two computations of which each may not end, said in both directions. -/
theorem optionRel_iff {Q : α → β → Prop} {a : Option α} {b : Option β} :
    Option.Rel Q a b ↔ (∀ x, a = some x → ∃ y, b = some y ∧ Q x y) ∧
      ∀ y, b = some y → ∃ x, a = some x ∧ Q x y := by
  constructor
  · rintro (h | _)
    · refine ⟨?_, ?_⟩
      · rintro _ ⟨⟩
        exact ⟨_, rfl, h⟩
      · rintro _ ⟨⟩
        exact ⟨_, rfl, h⟩
    · exact ⟨fun _ h => (nomatch h), fun _ h => (nomatch h)⟩
  · rintro ⟨h, h'⟩
    cases a with
    | some x =>
      obtain ⟨y, rfl, hq⟩ := h x rfl
      exact .some hq
    | none =>
      cases b with
      | none => exact .none
      | some y =>
        obtain ⟨x, hx, -⟩ := h' y rfl
        cases hx

theorem optionRel_mono {Q Q' : α → β → Prop} (h : ∀ a b, Q a b → Q' a b) {a : Option α}
    {b : Option β} (hr : Option.Rel Q a b) : Option.Rel Q' a b := by
  cases hr with
  | some hq => exact .some (h _ _ hq)
  | none => exact .none

/-- Of two computations that come to related results, one ends when the other does, and what they
end with is related. -/
theorem ends_iff_of_rel_lim {f : Nat → EStateM ε σ α} {g : Nat → EStateM ε' τ β} (hf : Steady f)
    (hg : Steady g) {Q : EStateM.Result ε σ α → EStateM.Result ε' τ β → Prop} {s : σ} {t : τ}
    (h : Option.Rel Q (lim f s) (lim g t)) :
    ((∃ n, ¬ RanOut (f n s)) ↔ ∃ n, ¬ RanOut (g n t)) ∧
      ∀ n k, ¬ RanOut (f n s) → ¬ RanOut (g k t) → Q (f n s) (g k t) := by
  obtain ⟨hleft, hright⟩ := optionRel_iff.mp h
  refine ⟨⟨?_, ?_⟩, fun n k hn hk => ?_⟩
  · rintro ⟨n, hn⟩
    obtain ⟨y, hy, -⟩ := hleft _ (lim_eq_some hf rfl hn)
    obtain ⟨k, rfl, hk⟩ := (lim_eq_some_iff hg).mp hy
    exact ⟨k, hk⟩
  · rintro ⟨k, hk⟩
    obtain ⟨x, hx, -⟩ := hright _ (lim_eq_some hg rfl hk)
    obtain ⟨n, rfl, hn⟩ := (lim_eq_some_iff hf).mp hx
    exact ⟨n, hn⟩
  · obtain ⟨y, hy, hq⟩ := hleft _ (lim_eq_some hf rfl hn)
    rw [lim_eq_some hg rfl hk] at hy
    cases hy
    exact hq

/-- **Loops whose rounds correspond come to corresponding ends**, or go on for ever both. -/
theorem rel_lim_rounds {r : Nat → EStateM ε σ (Option α)} {r' : Nat → EStateM ε' τ (Option β)}
    {I : σ → τ → Prop} {Q : EStateM.Result ε σ α → EStateM.Result ε' τ β → Prop} (hr : Steady r)
    (hr' : Steady r')
    (h : ∀ s t, I s t → Option.Rel (SameRound I Q) (lim r s) (lim r' t)) {s : σ} {t : τ}
    (hI : I s t) :
    Option.Rel Q (lim (fun n => rounds (r n) n) s) (lim (fun n => rounds (r' n) n) t) := by
  rw [optionRel_iff]
  refine ⟨fun x hx => ?_, fun y hy => ?_⟩
  · obtain ⟨n, rfl, hend⟩ := (lim_eq_some_iff hr.rounds).mp hx
    exact exists_lim_rounds hr hr' (fun s t q hI hq => (optionRel_iff.mp (h s t hI)).1 q hq) n n hI
      hend
  · obtain ⟨n, rfl, hend⟩ := (lim_eq_some_iff hr'.rounds).mp hy
    refine exists_lim_rounds hr' hr (I := fun t s => I s t) (Q := fun y x => Q x y)
      (fun t s q hI hq => ?_) n n hI hend
    obtain ⟨q', hq', hsame⟩ := (optionRel_iff.mp (h s t hI)).2 q hq
    exact ⟨q', hq', hsame.flip⟩

end

end StackCode
