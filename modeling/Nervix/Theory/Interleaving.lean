import Mathlib

/-!
# Interleavings of calls over a shared state

A *machine* says how one call, in its local state, performs its next atomic operation on a shared
state. Its configurations are the shared state together with the calls in flight, and its runs
interleave the operations of any number of calls in any order.
-/

namespace Nervix

variable {σ κ : Type*}

@[ext] structure Config (σ κ : Type*) where
  shared : σ
  calls : Multiset κ

structure Machine (σ κ : Type*) where
  start : σ → κ → Prop
  step : σ → κ → σ → Multiset κ → Prop

namespace Machine

inductive Step (M : Machine σ κ) : Config σ κ → Config σ κ → Prop
  | start {s c cs} : M.start s c → M.Step ⟨s, cs⟩ ⟨s, c ::ₘ cs⟩
  | step {s c s' next cs} : M.step s c s' next → M.Step ⟨s, c ::ₘ cs⟩ ⟨s', next + cs⟩

def Reachable (M : Machine σ κ) (c₀ : Config σ κ) : Config σ κ → Prop :=
  Relation.ReflTransGen M.Step c₀

def restrict (M : Machine σ κ) (ok : σ → κ → σ → Multiset κ → Prop) : Machine σ κ where
  start := M.start
  step s c s' next := M.step s c s' next ∧ ok s c s' next

variable {M : Machine σ κ} {c₀ c c' : Config σ κ}

theorem Reachable.refl : M.Reachable c₀ c₀ := Relation.ReflTransGen.refl

theorem Reachable.tail (h : M.Reachable c₀ c) (hs : M.Step c c') : M.Reachable c₀ c' :=
  Relation.ReflTransGen.tail h hs

theorem Reachable.trans (h₁ : M.Reachable c₁ c₂) (h₂ : M.Reachable c₂ c₃) : M.Reachable c₁ c₃ :=
  Relation.ReflTransGen.trans h₁ h₂

@[elab_as_elim]
theorem Reachable.inv {P : Config σ κ → Prop} (h : M.Reachable c₀ c) (h0 : P c₀)
    (hstart : ∀ {s c cs}, P ⟨s, cs⟩ → M.start s c → P ⟨s, c ::ₘ cs⟩)
    (hstep : ∀ {s c s' next cs}, P ⟨s, c ::ₘ cs⟩ → M.step s c s' next → P ⟨s', next + cs⟩) :
    P c := by
  induction h with
  | refl => exact h0
  | tail _ hs ih =>
    cases hs with
    | start h => exact hstart ih h
    | step h => exact hstep ih h

theorem Reachable.of_restrict {ok : σ → κ → σ → Multiset κ → Prop}
    (h : (M.restrict ok).Reachable c₀ c) : M.Reachable c₀ c := by
  refine h.inv .refl (fun ih hs => ih.tail (.start hs)) fun ih hs => ih.tail (.step hs.1)

/-! Concrete runs are built one operation at a time, on the call at the head of the pool. -/

theorem Reachable.start {s : σ} {c : κ} {cs : Multiset κ}
    (h : M.Reachable c₀ ⟨s, cs⟩) (hs : M.start s c) : M.Reachable c₀ ⟨s, c ::ₘ cs⟩ :=
  h.tail (.start hs)

theorem Reachable.step {s s' : σ} {c : κ} {next cs : Multiset κ}
    (h : M.Reachable c₀ ⟨s, c ::ₘ cs⟩) (hs : M.step s c s' next) :
    M.Reachable c₀ ⟨s', next + cs⟩ :=
  h.tail (.step hs)

theorem Reachable.step₁ {s s' : σ} {c d : κ} {cs : Multiset κ}
    (h : M.Reachable c₀ ⟨s, c ::ₘ cs⟩) (hs : M.step s c s' {d}) :
    M.Reachable c₀ ⟨s', d ::ₘ cs⟩ := by
  simpa using h.step hs

theorem Reachable.step₂ {s s' : σ} {c d e : κ} {cs : Multiset κ}
    (h : M.Reachable c₀ ⟨s, c ::ₘ cs⟩) (hs : M.step s c s' {d, e}) :
    M.Reachable c₀ ⟨s', d ::ₘ e ::ₘ cs⟩ := by
  simpa using h.step hs

theorem Reachable.perm (h : M.Reachable c₀ ⟨s, cs⟩) (hp : cs = ds) :
    M.Reachable c₀ ⟨s, ds⟩ := hp ▸ h

end Machine

theorem forall_mem_singleton {P : κ → Prop} (h : P c) : ∀ d ∈ ({c} : Multiset κ), P d :=
  fun _ hd => Multiset.mem_singleton.mp hd ▸ h

def weigh (w : κ → Nat) (cs : Multiset κ) : Nat := (cs.map w).sum

section weigh
variable (w v : κ → Nat) (c d : κ) (cs ds : Multiset κ)

@[simp] theorem weigh_zero : weigh w 0 = 0 := rfl

@[simp] theorem weigh_cons : weigh w (c ::ₘ cs) = w c + weigh w cs := by
  simp [weigh]

@[simp] theorem weigh_singleton : weigh w {c} = w c := by
  simp [weigh]

@[simp] theorem weigh_add : weigh w (cs + ds) = weigh w cs + weigh w ds := by
  simp [weigh]

@[simp] theorem weigh_replicate (n : Nat) : weigh w (Multiset.replicate n c) = n * w c := by
  simp [weigh]

@[simp] theorem weigh_map (f : ι → κ) (is : Multiset ι) :
    weigh w (is.map f) = weigh (fun i => w (f i)) is := by
  simp [weigh]

variable {w v c d cs ds}

theorem le_weigh_of_mem (h : c ∈ cs) : w c ≤ weigh w cs := by
  obtain ⟨ds, rfl⟩ := Multiset.exists_cons_of_mem h
  simp

theorem weigh_eq_zero_iff : weigh w cs = 0 ↔ ∀ c ∈ cs, w c = 0 := by
  induction cs using Multiset.induction with
  | empty => simp
  | cons c cs ih => simp [ih]

theorem weigh_le_weigh (h : ∀ c ∈ cs, w c ≤ v c) : weigh w cs ≤ weigh v cs := by
  induction cs using Multiset.induction with
  | empty => simp
  | cons c cs ih =>
    rw [weigh_cons, weigh_cons]
    exact Nat.add_le_add (h c (Multiset.mem_cons_self ..))
      (ih fun d hd => h d (Multiset.mem_cons_of_mem hd))

theorem weigh_congr (h : ∀ c ∈ cs, w c = v c) : weigh w cs = weigh v cs :=
  congrArg Multiset.sum (Multiset.map_congr rfl h)

theorem exists_mem_of_weigh_pos (h : 0 < weigh w cs) : ∃ c ∈ cs, 0 < w c := by
  by_contra hn
  push Not at hn
  have := weigh_eq_zero_iff.mpr fun c hc => Nat.le_zero.mp (hn c hc)
  omega

end weigh

theorem Machine.Reachable.weigh_inv {M : Machine σ κ} (h : M.Reachable c₀ c)
    (f g : σ → Nat) (w : κ → Nat) (h0 : f c₀.shared + weigh w c₀.calls = g c₀.shared)
    (hstart : ∀ {s c cs}, M.Reachable c₀ ⟨s, cs⟩ → M.start s c → w c = 0)
    (hstep : ∀ {s c s' next cs}, M.Reachable c₀ ⟨s, c ::ₘ cs⟩ →
      f s + (w c + weigh w cs) = g s → M.step s c s' next →
        f s' + weigh w next + g s = f s + w c + g s') :
    f c.shared + weigh w c.calls = g c.shared := by
  suffices M.Reachable c₀ c ∧ f c.shared + weigh w c.calls = g c.shared from this.2
  refine h.inv ⟨.refl, h0⟩ (fun ih hs => ⟨ih.1.start hs, ?_⟩) fun ih hs => ⟨ih.1.step hs, ?_⟩
  · simpa [hstart ih.1 hs] using ih.2
  · have hw := ih.2
    simp only [weigh_cons, weigh_add] at hw ⊢
    have hconserve := hstep ih.1 hw hs
    omega

theorem Machine.Reachable.weigh_le_inv {M : Machine σ κ} (h : M.Reachable c₀ c)
    (f g : σ → Nat) (w : κ → Nat) (h0 : f c₀.shared + weigh w c₀.calls ≤ g c₀.shared)
    (hstart : ∀ {s c}, M.start s c → w c = 0)
    (hstep : ∀ {s c s' next cs}, M.Reachable c₀ ⟨s, c ::ₘ cs⟩ → M.step s c s' next →
      f s' + weigh w next + g s ≤ f s + w c + g s') :
    f c.shared + weigh w c.calls ≤ g c.shared := by
  suffices M.Reachable c₀ c ∧ f c.shared + weigh w c.calls ≤ g c.shared from this.2
  refine h.inv ⟨.refl, h0⟩ (fun ih hs => ⟨ih.1.start hs, ?_⟩) fun ih hs => ⟨ih.1.step hs, ?_⟩
  · simpa [hstart hs] using ih.2
  · have hw := ih.2
    simp only [weigh_cons, weigh_add] at hw ⊢
    have hmove := hstep ih.1 hs
    omega

end Nervix
