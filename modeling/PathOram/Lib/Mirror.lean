import PathOram.Lib.Hoare

/-!
# Programs that run alike from related states

`f` changes a state in a part that a program does not depend on, as long as the invariant `I`
holds. Then a run from `f s` ends as the run from `s`, in the state that `f` makes of it.

* `Mirrors f I R x` — the two runs end alike, and `x` keeps `I`. What it returns satisfies `R`.
-/

namespace Hoare

variable {ε σ τ α β : Type}

/-- From `s`, `x` runs as from `f s`. It establishes `I`, and what it returns satisfies `R`. -/
def MirrorsAt (f : σ → σ) (I : σ → Prop) (R : α → Prop) (x : EStateM ε σ α) (s : σ) : Prop :=
  wp x (fun a s' => R a ∧ I s' ∧ x (f s) = .ok a (f s')) (fun e s' => x (f s) = .error e (f s')) s

/-- From every state of `I`, `x` runs as from its image under `f`. It keeps `I`, and what it
returns satisfies `R`. -/
def Mirrors (f : σ → σ) (I : σ → Prop) (R : α → Prop) (x : EStateM ε σ α) : Prop :=
  ∀ s, I s → MirrorsAt f I R x s

section Mirror

variable {f : σ → σ} {I : σ → Prop} {R : α → Prop}

theorem mirrors_pure {a : α} (ha : R a) : Mirrors f I R (pure a : EStateM ε σ α) :=
  fun _ hI => wp_pure ⟨ha, hI, rfl⟩

theorem MirrorsAt.bind {x : EStateM ε σ α} {g : α → EStateM ε σ β} {R' : β → Prop} {s : σ}
    (hx : MirrorsAt f I R x s) (hg : ∀ a, R a → Mirrors f I R' (g a)) :
    MirrorsAt f I R' (x >>= g) s := by
  cases hrun : x s with
  | ok a s' =>
    obtain ⟨ha, hI', hmirror⟩ := hx.ok hrun
    have hrest := hg a ha s' hI'
    unfold MirrorsAt wp
    rw [bind_of_ok hrun, bind_of_ok hmirror]
    exact hrest
  | error e s' =>
    unfold MirrorsAt wp
    rw [bind_of_error hrun, bind_of_error (hx.error hrun)]

theorem mirrors_bind {x : EStateM ε σ α} {g : α → EStateM ε σ β} {R' : β → Prop}
    (hx : Mirrors f I R x) (hg : ∀ a, R a → Mirrors f I R' (g a)) :
    Mirrors f I R' (x >>= g) := fun s hI => (hx s hI).bind hg

/-- A program that reads the state, but not what `f` changes. -/
theorem mirrors_get_bind {g : σ → EStateM ε σ α} (hf : ∀ s, g (f s) = g s)
    (hg : ∀ s, I s → Mirrors f I R (g s)) : Mirrors f I R (get >>= g) := by
  intro s hI
  have hrun : (get >>= g : EStateM ε σ α) (f s) = g s (f s) :=
    congrFun (hf s) (f s)
  show wp (g s) _ _ s
  rw [hrun]
  exact hg s hI s hI

theorem mirrors_modify {g : σ → σ} (hcomm : ∀ s, g (f s) = f (g s)) (hI : ∀ s, I s → I (g s)) :
    Mirrors f I (fun _ => True) (modify g : EStateM ε σ PUnit) := by
  refine fun s hs => wp_modify ⟨trivial, hI s hs, ?_⟩
  show EStateM.Result.ok PUnit.unit (g (f s)) = EStateM.Result.ok PUnit.unit (f (g s))
  rw [hcomm]

theorem mirrors_modifyGet {g : σ → α × σ} (hcomm : ∀ s, g (f s) = ((g s).1, f (g s).2))
    (hI : ∀ s, I s → R (g s).1 ∧ I (g s).2) :
    Mirrors f I R (modifyGet g : EStateM ε σ α) := by
  refine fun s hs => wp_modifyGet ⟨(hI s hs).1, (hI s hs).2, ?_⟩
  show EStateM.Result.ok (g (f s)).1 (g (f s)).2 = EStateM.Result.ok (g s).1 (f (g s).2)
  rw [hcomm]

/-- A program on a component that `f` leaves alone. -/
theorem mirrors_zoom {L : Lens σ τ} {x : EStateM ε τ α} (hget : ∀ s, L.get (f s) = L.get s)
    (hset : ∀ t s, L.set t (f s) = f (L.set t s)) (hI : ∀ t s, I s → I (L.set t s))
    (hx : ∀ t, wp x (fun a _ => R a) (fun _ _ => True) t) : Mirrors f I R (zoom L x) := by
  intro s hs
  have hspec := hx (L.get s)
  cases hrun : x (L.get s) with
  | ok a t =>
    refine wp_of_ok (zoom_of_ok hrun) ⟨hspec.ok hrun, hI t s hs, ?_⟩
    rw [zoom_of_ok (by rwa [hget]), hset]
  | error e t =>
    refine wp_of_error (zoom_of_error hrun) ?_
    rw [zoom_of_error (by rwa [hget]), hset]

theorem mirrors_zoom_of_frame {L : Lens σ τ} (hget : ∀ s, L.get (f s) = L.get s)
    (hset : ∀ t s, L.set t (f s) = f (L.set t s)) (hI : ∀ t s, I s → I (L.set t s))
    (x : EStateM ε τ α) : Mirrors f I (fun _ => True) (zoom L x) := by
  refine mirrors_zoom hget hset hI fun t => ?_
  cases hrun : x t with
  | ok a t' => exact wp_of_ok hrun trivial
  | error e t' => exact wp_of_error hrun trivial

end Mirror

end Hoare
