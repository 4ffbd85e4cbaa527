import Mathlib.Data.List.Basic
import Mathlib.Tactic.Common

/-!
# Weakest preconditions for programs that mutate state and throw

A program with a mutable state `σ` that may throw `ε` is an `EStateM ε σ α`. The
state written before a `throw` is kept, as an exception of an imperative language
leaves the objects it has already changed. So a specification has two
postconditions, one for the normal return and one for the exceptional exit, and both
speak about the state that is left.

* `wp x Q E s` — running `x` from `s` ends in `Q` if it returns and in `E` if it
  throws. A total-correctness statement is the instance `E := fun _ _ => False`.
* `wp_bind`, `wp_mono`, `wp_foldlM` — sequencing, consequence, and the invariant
  rule of a loop over a list.
* `Lens` and `zoom` — running a program on one component of a larger state; the
  other components are framed by `wp_zoom`.
* `Preserves` — the invariant triple: what a program keeps whichever way it ends.
* `runCatching` — a client that makes a list of calls, catches what they throw and
  goes on from the state the failed call left. `runCatching_spec` is the run lemma:
  what every call preserves holds along every run.
-/

namespace Hoare

variable {ε σ τ α β γ : Type}

/-- **Weakest precondition.** `x` started in `s` satisfies `Q` on a normal return
and `E` on an exception; both see the state that is left. -/
def wp (x : EStateM ε σ α) (Q : α → σ → Prop) (E : ε → σ → Prop) (s : σ) : Prop :=
  match x s with
  | .ok a s' => Q a s'
  | .error e s' => E e s'

/-- The state that a run leaves, whichever way it ends. -/
def leaves (x : EStateM ε σ α) (s : σ) : σ :=
  match x s with
  | .ok _ s' => s'
  | .error _ s' => s'

/-- What a run returns, if it does. -/
def returned (x : EStateM ε σ α) (s : σ) : Option α :=
  match x s with
  | .ok a _ => some a
  | .error _ _ => none

theorem eq_ok_of_returned {x : EStateM ε σ α} {s : σ} {a : α} (h : returned x s = some a) :
    x s = .ok a (leaves x s) := by
  unfold returned at h
  unfold leaves
  cases hx : x s with
  | ok b s' =>
    rw [hx] at h
    obtain rfl := Option.some.inj h
    rfl
  | error e s' =>
    rw [hx] at h
    cases h

/-! ### Structural rules -/

section Rules

variable {Q : α → σ → Prop} {E : ε → σ → Prop} {s s' : σ} {a : α} {e : ε}

theorem wp_of_ok {x : EStateM ε σ α} (h : x s = .ok a s') (hQ : Q a s') : wp x Q E s := by
  unfold wp
  rw [h]
  exact hQ

theorem wp_of_error {x : EStateM ε σ α} (h : x s = .error e s') (hE : E e s') :
    wp x Q E s := by
  unfold wp
  rw [h]
  exact hE

/-- Reading the normal postcondition off a run that returned. -/
theorem wp.ok {x : EStateM ε σ α} (h : wp x Q E s) (hx : x s = .ok a s') : Q a s' := by
  unfold wp at h
  rwa [hx] at h

/-- Reading the exceptional postcondition off a run that threw. -/
theorem wp.error {x : EStateM ε σ α} (h : wp x Q E s) (hx : x s = .error e s') : E e s' := by
  unfold wp at h
  rwa [hx] at h

/-- Total correctness: a program that cannot throw returns. -/
theorem wp.exists_ok {x : EStateM ε σ α} (h : wp x Q (fun _ _ => False) s) :
    ∃ a s', x s = .ok a s' ∧ Q a s' := by
  cases hx : x s with
  | ok a s' => exact ⟨a, s', rfl, h.ok hx⟩
  | error e s' => exact absurd (h.error hx) id

/-- What holds at either end of a run holds of the state it leaves. -/
theorem wp.leaves {x : EStateM ε σ α} {P : σ → Prop}
    (h : wp x (fun _ s' => P s') (fun _ s' => P s') s) : P (leaves x s) := by
  cases hx : x s with
  | ok a s' =>
    have heq : Hoare.leaves x s = s' := by rw [Hoare.leaves, hx]
    exact heq ▸ h.ok hx
  | error e s' =>
    have heq : Hoare.leaves x s = s' := by rw [Hoare.leaves, hx]
    exact heq ▸ h.error hx

/-- Consequence. -/
theorem wp_mono {x : EStateM ε σ α} {Q' : α → σ → Prop} {E' : ε → σ → Prop}
    (h : wp x Q E s) (hQ : ∀ a s', Q a s' → Q' a s') (hE : ∀ e s', E e s' → E' e s') :
    wp x Q' E' s := by
  cases hx : x s with
  | ok a s' => exact wp_of_ok hx (hQ a s' (h.ok hx))
  | error e s' => exact wp_of_error hx (hE e s' (h.error hx))

theorem wp_pure (h : Q a s) : wp (pure a : EStateM ε σ α) Q E s := h

theorem wp_throw (h : E e s) : wp (throw e : EStateM ε σ α) Q E s := h

/-- Sequencing. -/
theorem wp_bind {x : EStateM ε σ α} {f : α → EStateM ε σ β} {R : β → σ → Prop}
    (h : wp x (fun a s' => wp (f a) R E s') E s) : wp (x >>= f) R E s := by
  -- The postconditions are read off `EStateM.bind`, which passes the state of `x` on.
  change (match EStateM.bind x f s with
    | .ok b s' => R b s'
    | .error e s' => E e s')
  unfold EStateM.bind
  cases hx : x s with
  | ok a s' => exact h.ok hx
  | error e s' => exact h.error hx

/-- A program goes on from where its first step returned. -/
theorem bind_of_ok {x : EStateM ε σ α} (h : x s = .ok a s') (f : α → EStateM ε σ β) :
    (x >>= f) s = f a s' := by
  change EStateM.bind x f s = _
  unfold EStateM.bind
  rw [h]

/-- A program ends where its first step throws. -/
theorem bind_of_error {x : EStateM ε σ α} (h : x s = .error e s') (f : α → EStateM ε σ β) :
    (x >>= f) s = .error e s' := by
  change EStateM.bind x f s = _
  unfold EStateM.bind
  rw [h]

theorem wp_map {x : EStateM ε σ α} {f : α → β} {R : β → σ → Prop}
    (h : wp x (fun a s' => R (f a) s') E s) : wp (f <$> x) R E s := by
  change (match EStateM.map f x s with
    | .ok b s' => R b s'
    | .error e s' => E e s')
  unfold EStateM.map
  cases hx : x s with
  | ok a s' => exact h.ok hx
  | error e s' => exact h.error hx

theorem wp_get {R : σ → σ → Prop} (h : R s s) : wp (get : EStateM ε σ σ) R E s := h

theorem wp_modify {f : σ → σ} {R : PUnit → σ → Prop} (h : R ⟨⟩ (f s)) :
    wp (modify f : EStateM ε σ PUnit) R E s := h

theorem wp_modifyGet {f : σ → α × σ} (h : Q (f s).1 (f s).2) :
    wp (modifyGet f : EStateM ε σ α) Q E s := h

theorem wp_liftExcept_ok {x : Except ε α} (hx : x = .ok a) (h : Q a s) :
    wp (liftExcept x) Q E s := by
  subst hx
  exact h

theorem wp_liftExcept_error {x : Except ε α} (hx : x = .error e) (h : E e s) :
    wp (liftExcept x) Q E s := by
  subst hx
  exact h

/-- Two specifications of one program hold together. -/
theorem wp_and {x : EStateM ε σ α} {Q' : α → σ → Prop} {E' : ε → σ → Prop}
    (h : wp x Q E s) (h' : wp x Q' E' s) :
    wp x (fun a s' => Q a s' ∧ Q' a s') (fun e s' => E e s' ∧ E' e s') s := by
  cases hx : x s with
  | ok a s' => exact wp_of_ok hx ⟨h.ok hx, h'.ok hx⟩
  | error e s' => exact wp_of_error hx ⟨h.error hx, h'.error hx⟩

end Rules

/-- **The loop rule.** `I rest acc s` is the invariant with `rest` still to visit. -/
theorem wp_foldlM {f : γ → β → EStateM ε σ γ} (I : List β → γ → σ → Prop) {E : ε → σ → Prop}
    (step : ∀ b rest acc s, I (b :: rest) acc s → wp (f acc b) (I rest) E s) :
    ∀ (l : List β) (acc : γ) (s : σ), I l acc s → wp (l.foldlM f acc) (I []) E s := by
  intro l
  induction l with
  | nil => exact fun acc s h => wp_pure h
  | cons b rest ih =>
    intro acc s h
    rw [List.foldlM_cons]
    -- One iteration takes the invariant from `b :: rest` to `rest`; an exception leaves the loop.
    exact wp_bind (wp_mono (step b rest acc s h) (fun acc' s' h' => ih acc' s' h')
      (fun _ _ h => h))

/-- The loop rule for a loop that accumulates nothing. -/
theorem wp_forM {f : β → EStateM ε σ PUnit} (I : List β → σ → Prop) {E : ε → σ → Prop}
    (step : ∀ b rest s, I (b :: rest) s → wp (f b) (fun _ => I rest) E s) :
    ∀ (l : List β) (s : σ), I l s → wp (l.forM f) (fun _ => I []) E s := by
  intro l
  induction l with
  | nil => exact fun s h => wp_pure h
  | cons b rest ih =>
    intro s h
    change wp (f b >>= fun _ => rest.forM f) (fun _ => I []) E s
    exact wp_bind (wp_mono (step b rest s h) (fun _ s' h' => ih s' h') (fun _ _ h => h))

/-- A loop whose iterations establish a goal each: `T` relates the states before and after
an iteration, and a goal once reached is kept along it. -/
theorem wp_forM_goals_of_mem {f : β → EStateM ε σ PUnit} {I : σ → Prop} {G : β → σ → Prop}
    {T : σ → σ → Prop} {E : ε → σ → Prop} (hrefl : ∀ s, T s s)
    (htrans : ∀ s s' s'', T s s' → T s' s'' → T s s'')
    (hkeep : ∀ b s s', T s s' → G b s → G b s') {l : List β}
    (step : ∀ b ∈ l, ∀ s, I s → wp (f b) (fun _ s' => I s' ∧ G b s' ∧ T s s') E s)
    (s : σ) (hI : I s) :
    wp (l.forM f) (fun _ s' => I s' ∧ (∀ b ∈ l, G b s') ∧ T s s') E s := by
  -- on the list; `T` carries the goals reached so far over the later steps
  induction l generalizing s with
  | nil => exact wp_pure ⟨hI, fun _ h => absurd h List.not_mem_nil, hrefl s⟩
  | cons b rest ih =>
    change wp (f b >>= fun _ => rest.forM f) _ E s
    refine wp_bind (wp_mono (step b List.mem_cons_self s hI) ?_ fun _ _ h => h)
    rintro _ s' ⟨hI', hG, hT⟩
    refine wp_mono (ih (fun b hb => step b (List.mem_cons_of_mem _ hb)) s' hI') ?_ fun _ _ h => h
    rintro _ s'' ⟨hI'', hrest, hT'⟩
    exact ⟨hI'', List.forall_mem_cons.mpr ⟨hkeep b s' s'' hT' hG, hrest⟩, htrans s s' s'' hT hT'⟩

/-- The same for iterations that do not depend on what is in the list. -/
theorem wp_forM_goals {f : β → EStateM ε σ PUnit} {I : σ → Prop} {G : β → σ → Prop}
    {T : σ → σ → Prop} {E : ε → σ → Prop} (hrefl : ∀ s, T s s)
    (htrans : ∀ s s' s'', T s s' → T s' s'' → T s s'')
    (hkeep : ∀ b s s', T s s' → G b s → G b s')
    (step : ∀ b s, I s → wp (f b) (fun _ s' => I s' ∧ G b s' ∧ T s s') E s)
    (l : List β) (s : σ) (hI : I s) :
    wp (l.forM f) (fun _ s' => I s' ∧ (∀ b ∈ l, G b s') ∧ T s s') E s :=
  wp_forM_goals_of_mem hrefl htrans hkeep (fun b _ => step b) s hI

/-! ### Programs on a component of the state -/

/-- A component `τ` of the state `σ`, with the laws that make it one. -/
structure Lens (σ τ : Type) where
  /-- The component of a state. -/
  get : σ → τ
  /-- The state with the component replaced. -/
  set : τ → σ → σ
  /-- What is written is read back. -/
  get_set : ∀ t s, get (set t s) = t

/-- Run a program on the component `L` of the state. -/
def zoom (L : Lens σ τ) (x : EStateM ε τ α) : EStateM ε σ α := fun s =>
  match x (L.get s) with
  | .ok a t => .ok a (L.set t s)
  | .error e t => .error e (L.set t s)

theorem zoom_of_ok {L : Lens σ τ} {x : EStateM ε τ α} {s : σ} {a : α} {t : τ}
    (h : x (L.get s) = .ok a t) : zoom L x s = .ok a (L.set t s) := by
  unfold zoom
  rw [h]

/-- What the component is when `x` throws is written back as well. -/
theorem zoom_of_error {L : Lens σ τ} {x : EStateM ε τ α} {s : σ} {e : ε} {t : τ}
    (h : x (L.get s) = .error e t) : zoom L x s = .error e (L.set t s) := by
  unfold zoom
  rw [h]

theorem wp_zoom {L : Lens σ τ} {x : EStateM ε τ α} {Q : α → σ → Prop} {E : ε → σ → Prop}
    {s : σ} (h : wp x (fun a t => Q a (L.set t s)) (fun e t => E e (L.set t s)) (L.get s)) :
    wp (zoom L x) Q E s := by
  cases hx : x (L.get s) with
  | ok a t => exact wp_of_ok (zoom_of_ok hx) (h.ok hx)
  | error e t => exact wp_of_error (zoom_of_error hx) (h.error hx)

/-- Two steps on one component, if writing it overwrites what was written before. -/
theorem zoom_bind {L : Lens σ τ} (hset : ∀ t t' s, L.set t (L.set t' s) = L.set t s)
    (x : EStateM ε τ α) (f : α → EStateM ε τ β) :
    zoom L (x >>= f) = (zoom L x >>= fun a => zoom L (f a)) := by
  funext s
  -- the first action decides whether the second one is run at all
  cases hx : x (L.get s) with
  | ok a t =>
    rw [bind_of_ok (zoom_of_ok hx)]
    unfold zoom
    rw [bind_of_ok hx, L.get_set]
    cases f a t with
    | ok b t' => simp only [hset]
    | error e t' => simp only [hset]
  | error e t => rw [bind_of_error (zoom_of_error hx), zoom_of_error (bind_of_error hx f)]

/-- A component of a component. -/
theorem zoom_zoom {υ : Type} {L : Lens σ τ} {L' : Lens τ υ} {L'' : Lens σ υ}
    (hget : ∀ s, L''.get s = L'.get (L.get s))
    (hset : ∀ t s, L''.set t s = L.set (L'.set t (L.get s)) s) (x : EStateM ε υ α) :
    zoom L (zoom L' x) = zoom L'' x := by
  funext s
  cases hx : x (L''.get s) with
  | ok a t =>
    rw [zoom_of_ok hx, zoom_of_ok (zoom_of_ok (by rwa [← hget])), hset]
  | error e t =>
    rw [zoom_of_error hx, zoom_of_error (zoom_of_error (by rwa [← hget])), hset]

/-- A loop on one component. -/
theorem zoom_forM {κ : Type} {L : Lens σ τ} (hset : ∀ t t' s, L.set t (L.set t' s) = L.set t s)
    (hself : ∀ s, L.set (L.get s) s = s) (l : List κ) (f : κ → EStateM ε τ Unit) :
    zoom L (l.forM f) = l.forM fun k => zoom L (f k) := by
  induction l with
  | nil =>
    funext s
    exact congrArg (EStateM.Result.ok ()) (hself s)
  | cons k l ih =>
    change zoom L (f k >>= fun _ => l.forM f) = (zoom L (f k) >>= fun _ => l.forM _)
    rw [zoom_bind hset, ih]

/-! ### Frames -/

/-- `x` leaves the part `g` of the state alone, also when it throws. -/
def Keeps {κ : Type} (g : σ → κ) (x : EStateM ε σ α) : Prop :=
  ∀ s, wp x (fun _ s' => g s' = g s) (fun _ s' => g s' = g s) s

section Frame

variable {κ : Type} {g : σ → κ}

theorem keeps_pure (a : α) : Keeps g (pure a : EStateM ε σ α) := fun _ => wp_pure rfl

theorem keeps_get : Keeps g (get : EStateM ε σ σ) := fun _ => wp_get rfl

theorem keeps_modify {f : σ → σ} (hf : ∀ s, g (f s) = g s) :
    Keeps g (modify f : EStateM ε σ PUnit) := fun s => wp_modify (hf s)

theorem keeps_modifyGet {f : σ → α × σ} (hf : ∀ s, g (f s).2 = g s) :
    Keeps g (modifyGet f : EStateM ε σ α) := fun s => wp_modifyGet (hf s)

theorem keeps_bind {x : EStateM ε σ α} {f : α → EStateM ε σ β} (hx : Keeps g x)
    (hf : ∀ a, Keeps g (f a)) : Keeps g (x >>= f) := fun s =>
  wp_bind (wp_mono (hx s)
    (fun a s' h => wp_mono (hf a s') (fun _ _ h' => h'.trans h) fun _ _ h' => h'.trans h)
    fun _ _ h => h)

theorem keeps_forM {f : β → EStateM ε σ PUnit} (hf : ∀ b, Keeps g (f b)) (l : List β) :
    Keeps g (l.forM f) := by
  induction l with
  | nil => exact keeps_pure _
  | cons b l ih => exact keeps_bind (hf b) fun _ => ih

theorem keeps_zoom {L : Lens σ τ} (hL : ∀ t s, g (L.set t s) = g s) (x : EStateM ε τ α) :
    Keeps g (zoom L x) := fun s =>
  wp_zoom (by
    cases hx : x (L.get s) with
    | ok a t => exact wp_of_ok hx (hL t s)
    | error e t => exact wp_of_error hx (hL t s))

end Frame

/-! ### Invariants of a program -/

/-- `x` keeps the invariant `I`, also when it throws. What it returns satisfies `R`, what it
throws satisfies `E`. -/
def Preserves (I : σ → Prop) (R : α → Prop) (E : ε → Prop) (x : EStateM ε σ α) : Prop :=
  ∀ s, I s → wp x (fun a s' => R a ∧ I s') (fun e s' => E e ∧ I s') s

section Invariant

variable {I : σ → Prop} {R : α → Prop} {E : ε → Prop}

theorem preserves_pure {a : α} (ha : R a) : Preserves I R E (pure a : EStateM ε σ α) :=
  fun _ hI => wp_pure ⟨ha, hI⟩

theorem preserves_throw {e : ε} (he : E e) : Preserves I R E (throw e : EStateM ε σ α) :=
  fun _ hI => wp_throw ⟨he, hI⟩

theorem preserves_get : Preserves I I E (get : EStateM ε σ σ) := fun _ hI => wp_get ⟨hI, hI⟩

theorem preserves_modify {f : σ → σ} (hf : ∀ s, I s → I (f s)) :
    Preserves I (fun _ => True) E (modify f : EStateM ε σ PUnit) := fun s hI =>
  wp_modify ⟨trivial, hf s hI⟩

theorem preserves_modifyGet {f : σ → α × σ} (hf : ∀ s, I s → R (f s).1 ∧ I (f s).2) :
    Preserves I R E (modifyGet f : EStateM ε σ α) := fun s hI => wp_modifyGet (hf s hI)

theorem preserves_bind {x : EStateM ε σ α} {f : α → EStateM ε σ β} {R' : β → Prop}
    (hx : Preserves I R E x) (hf : ∀ a, R a → Preserves I R' E (f a)) :
    Preserves I R' E (x >>= f) := fun s hI =>
  wp_bind (wp_mono (hx s hI) (fun a s' h => hf a h.1 s' h.2) fun _ _ h => h)

theorem preserves_map {x : EStateM ε σ α} {f : α → β} {R' : β → Prop}
    (hx : Preserves I R E x) (hf : ∀ a, R a → R' (f a)) : Preserves I R' E (f <$> x) :=
  fun s hI => wp_map (wp_mono (hx s hI) (fun a _ h => ⟨hf a h.1, h.2⟩) fun _ _ h => h)

/-- A program on a component keeps an invariant that does not depend on the component. -/
theorem preserves_zoom {L : Lens σ τ} {x : EStateM ε τ α} (hL : ∀ s t, I s → I (L.set t s))
    (hx : ∀ t, wp x (fun a _ => R a) (fun e _ => E e) t) : Preserves I R E (zoom L x) :=
  fun s hI => wp_zoom (wp_mono (hx (L.get s)) (fun _ t h => ⟨h, hL s t hI⟩)
    fun _ t h => ⟨h, hL s t hI⟩)

theorem preserves_foldlM {f : γ → β → EStateM ε σ γ} {R : γ → Prop} {l : List β} {acc : γ}
    (hacc : R acc) (hf : ∀ acc, ∀ b ∈ l, R acc → Preserves I R E (f acc b)) :
    Preserves I R E (l.foldlM f acc) := by
  induction l generalizing acc with
  | nil => exact preserves_pure hacc
  | cons b l ih =>
    rw [List.foldlM_cons]
    exact preserves_bind (hf acc b List.mem_cons_self hacc) fun acc' hacc' =>
      ih hacc' fun acc b hb => hf acc b (List.mem_cons_of_mem _ hb)

/-- A run that threw, from a state that satisfies the invariant. -/
theorem Preserves.error {x : EStateM ε σ α} (h : Preserves I R E x) {s s' : σ} {e : ε}
    (hI : I s) (hx : x s = .error e s') : E e ∧ I s' := (h s hI).error hx

/-- A run that returned, from a state that satisfies the invariant. -/
theorem Preserves.ok {x : EStateM ε σ α} (h : Preserves I R E x) {s s' : σ} {a : α}
    (hI : I s) (hx : x s = .ok a s') : R a ∧ I s' := (h s hI).ok hx

end Invariant

/-! ### Clients that catch -/

section Client

variable {κ ρ : Type}

/-- A client makes its calls in order. It catches what a call throws and makes the
next call from the state the failed one left. -/
def runCatching (exec : κ → EStateM ε σ ρ) : List κ → σ → List (Except ε ρ) × σ
  | [], s => ([], s)
  -- There is no rollback: both branches go on from the state that the call left.
  | k :: ks, s =>
    match exec k s with
    | .ok r s' => (.ok r :: (runCatching exec ks s').1, (runCatching exec ks s').2)
    | .error e s' => (.error e :: (runCatching exec ks s').1, (runCatching exec ks s').2)

variable {exec : κ → EStateM ε σ ρ}

theorem runCatching_cons_ok {k : κ} {ks : List κ} {s s' : σ} {r : ρ}
    (h : exec k s = .ok r s') :
    runCatching exec (k :: ks) s =
      (.ok r :: (runCatching exec ks s').1, (runCatching exec ks s').2) := by
  rw [runCatching, h]

theorem runCatching_cons_error {k : κ} {ks : List κ} {s s' : σ} {e : ε}
    (h : exec k s = .error e s') :
    runCatching exec (k :: ks) s =
      (.error e :: (runCatching exec ks s').1, (runCatching exec ks s').2) := by
  rw [runCatching, h]

/-- Whether all outcomes are normal returns can be computed. -/
theorem ok_of_toBool {os : List (Except ε ρ)} (h : ∀ o ∈ os, o.toBool = true) :
    ∀ o ∈ os, ∃ r, o = .ok r := by
  intro o ho
  cases o with
  | ok r => exact ⟨r, rfl⟩
  | error e => exact absurd (h _ ho) Bool.false_ne_true

/-- A call is the run of a single call. -/
theorem exec_of_runCatching {k : κ} {s : σ} {e : ε}
    (h : (runCatching exec [k] s).1 = [.error e]) :
    exec k s = .error e (runCatching exec [k] s).2 := by
  cases hexec : exec k s with
  | ok r s' =>
    rw [runCatching_cons_ok hexec] at h
    -- The only outcome is an exception, so the call did not return.
    exact absurd (List.cons.inj h).1 (by simp)
  | error e' s' =>
    rw [runCatching_cons_error hexec] at h ⊢
    obtain rfl := Except.error.inj (List.cons.inj h).1
    rfl

/-- The outcomes of a run judged call by call: `V` carries what is known of the state
before each call, `J v k o v'` judges the outcome `o` of the call `k` and hands `v'`
to the next one. -/
inductive Judged {υ : Type} (J : υ → κ → Except ε ρ → υ → Prop) :
    υ → List κ → List (Except ε ρ) → υ → Prop
  | nil (v : υ) : Judged J v [] [] v
  | cons {v v' v'' : υ} {k : κ} {ks : List κ} {o : Except ε ρ} {os : List (Except ε ρ)}
      (head : J v k o v') (tail : Judged J v' ks os v'') :
      Judged J v (k :: ks) (o :: os) v''

/-- **The run lemma.** `I v s` relates the ghost value `v` to the state `s`. If every
admitted call takes related pairs to related pairs and its outcome is judged by `J`,
so does every run. -/
theorem runCatching_spec {υ : Type} {I : υ → σ → Prop} {A : κ → Prop}
    {J : υ → κ → Except ε ρ → υ → Prop}
    (step : ∀ v k s, I v s → A k →
      wp (exec k) (fun r s' => ∃ v', J v k (.ok r) v' ∧ I v' s')
        (fun e s' => ∃ v', J v k (.error e) v' ∧ I v' s') s) :
    ∀ (ks : List κ) (v : υ) (s : σ), I v s → (∀ k ∈ ks, A k) →
      ∃ v', Judged J v ks (runCatching exec ks s).1 v' ∧ I v' (runCatching exec ks s).2 := by
  intro ks
  induction ks with
  | nil => exact fun v s hI _ => ⟨v, .nil v, hI⟩
  | cons k ks ih =>
    intro v s hI hA
    -- The ghost value after the call depends on how it ended.
    have hstep := step v k s hI (hA k List.mem_cons_self)
    have hks : ∀ k' ∈ ks, A k' := fun k' hk' => hA k' (List.mem_cons_of_mem k hk')
    cases h : exec k s with
    | ok r s' =>
      obtain ⟨v', hJ, hI'⟩ := hstep.ok h
      obtain ⟨v'', hJs, hI''⟩ := ih v' s' hI' hks
      rw [runCatching_cons_ok h]
      exact ⟨v'', .cons hJ hJs, hI''⟩
    | error e s' =>
      obtain ⟨v', hJ, hI'⟩ := hstep.error h
      obtain ⟨v'', hJs, hI''⟩ := ih v' s' hI' hks
      rw [runCatching_cons_error h]
      exact ⟨v'', .cons hJ hJs, hI''⟩

/-- Every call of a run is admitted by `A` in the state that it finds; `next` says what becomes
of the ghost value. -/
def Admitted {υ : Type} (exec : κ → EStateM ε σ ρ) (A : υ → σ → κ → Prop) (next : κ → υ → υ) :
    List κ → υ → σ → Prop
  | [], _, _ => True
  | k :: ks, v, s => A v s k ∧ Admitted exec A next ks (next k v) (leaves (exec k) s)

/-- What is known of all calls of a run may be asked of each. -/
theorem Admitted.and {υ : Type} {A : υ → σ → κ → Prop} {B : κ → Prop} {next : κ → υ → υ}
    {ks : List κ} {v : υ} {s : σ} (h : Admitted exec A next ks v s) (hB : ∀ k ∈ ks, B k) :
    Admitted exec (fun v s k => A v s k ∧ B k) next ks v s := by
  induction ks generalizing v s with
  | nil => trivial
  | cons k ks ih =>
    exact ⟨⟨h.1, hB k List.mem_cons_self⟩, ih h.2 fun k' hk' => hB k' (List.mem_cons_of_mem k hk')⟩

/-- What is known of all exceptions of a run may be asked of each call. -/
theorem Admitted.and_errors {υ : Type} {A : υ → σ → κ → Prop} {E : ε → Prop} {next : κ → υ → υ}
    {ks : List κ} {v : υ} {s : σ} (h : Admitted exec A next ks v s)
    (hE : ∀ e, .error e ∈ (runCatching exec ks s).1 → E e) :
    Admitted exec (fun v s k => A v s k ∧ ∀ e s', exec k s = .error e s' → E e) next ks v s := by
  induction ks generalizing v s with
  | nil => trivial
  | cons k ks ih =>
    -- what the rest throws is thrown by the whole run
    have hrest : ∀ e, .error e ∈ (runCatching exec ks (leaves (exec k) s)).1 → E e := by
      intro e he
      refine hE e ?_
      unfold leaves at he
      cases hexec : exec k s with
      | ok r s' =>
        rw [hexec] at he
        rw [runCatching_cons_ok hexec]
        exact List.mem_cons_of_mem _ he
      | error e' s' =>
        rw [hexec] at he
        rw [runCatching_cons_error hexec]
        exact List.mem_cons_of_mem _ he
    refine ⟨⟨h.1, fun e s' hexec => hE e ?_⟩, ih h.2 hrest⟩
    rw [runCatching_cons_error hexec]
    exact List.mem_cons_self

/-- Two conditions on the calls of a run are the same when they agree on every call made in a
state with the invariant, and the calls that meet them keep it. -/
theorem admitted_congr {υ : Type} {I : υ → σ → Prop} {A B : υ → σ → κ → Prop} {next : κ → υ → υ}
    (agree : ∀ v s k, I v s → (A v s k ↔ B v s k))
    (keep : ∀ v s k, I v s → A v s k → I (next k v) (leaves (exec k) s)) (ks : List κ) (v : υ)
    (s : σ) (hI : I v s) : Admitted exec A next ks v s ↔ Admitted exec B next ks v s := by
  induction ks generalizing v s with
  | nil => exact Iff.rfl
  | cons k ks ih =>
    -- The rest of the run starts from a state with the invariant once the first call is admitted.
    exact (and_congr_right fun hA => ih _ _ (keep v s k hI hA)).trans
      (and_congr_left' (agree v s k hI))

/-- **The run lemma, for calls that are admitted by the state they find.** -/
theorem runCatching_admitted {υ : Type} {I : υ → σ → Prop} {A : υ → σ → κ → Prop}
    {next : κ → υ → υ} {J : υ → κ → Except ε ρ → υ → Prop}
    (step : ∀ v k s, I v s → A v s k →
      wp (exec k) (fun r s' => J v k (.ok r) (next k v) ∧ I (next k v) s')
        (fun e s' => J v k (.error e) (next k v) ∧ I (next k v) s') s) :
    ∀ (ks : List κ) (v : υ) (s : σ), I v s → Admitted exec A next ks v s →
      ∃ v', Judged J v ks (runCatching exec ks s).1 v' ∧ I v' (runCatching exec ks s).2 := by
  intro ks
  induction ks with
  | nil => exact fun v s hI _ => ⟨v, .nil v, hI⟩
  | cons k ks ih =>
    rintro v s hI ⟨hA, hks⟩
    have hstep := step v k s hI hA
    unfold leaves at hks
    -- a call that throws leaves a state too, from which the run goes on
    cases h : exec k s with
    | ok r s' =>
      rw [h] at hks
      obtain ⟨hJ, hI'⟩ := hstep.ok h
      obtain ⟨v'', hJs, hI''⟩ := ih (next k v) s' hI' hks
      rw [runCatching_cons_ok h]
      exact ⟨v'', .cons hJ hJs, hI''⟩
    | error e s' =>
      rw [h] at hks
      obtain ⟨hJ, hI'⟩ := hstep.error h
      obtain ⟨v'', hJs, hI''⟩ := ih (next k v) s' hI' hks
      rw [runCatching_cons_error h]
      exact ⟨v'', .cons hJ hJs, hI''⟩

/-- The outcomes of calls that are answered from an abstract state. -/
def served {υ : Type} (answer : κ → υ → ρ) (next : κ → υ → υ) : List κ → υ → List (Except ε ρ)
  | [], _ => []
  | k :: ks, v => .ok (answer k v) :: served answer next ks (next k v)

/-- **A run that is answered from an abstract state**: the state of the program represents it, one
call after the other. -/
theorem runCatching_served {υ : Type} {I : υ → σ → Prop} {A : κ → Prop} {answer : κ → υ → ρ}
    {next : κ → υ → υ}
    (step : ∀ k v s, A k → I v s → ∃ s', exec k s = .ok (answer k v) s' ∧ I (next k v) s')
    {ks : List κ} (hks : ∀ k ∈ ks, A k) {v : υ} {s : σ} (hI : I v s) :
    (runCatching exec ks s).1 = served answer next ks v := by
  induction ks generalizing v s with
  | nil => rfl
  | cons k ks ih =>
    obtain ⟨s', hexec, hI'⟩ := step k v s (hks k List.mem_cons_self) hI
    rw [runCatching_cons_ok hexec, served]
    exact congrArg (.ok (answer k v) :: ·) (ih (fun k hk => hks k (List.mem_cons_of_mem _ hk)) hI')

end Client

end Hoare
