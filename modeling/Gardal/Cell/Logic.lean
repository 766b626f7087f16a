import Gardal.Cell.Pool
/-!
# A rely-guarantee logic for programs over one cell

Every call in progress carries a ghost state. A `Protocol` says how the ghost state moves with each
deed of its own call (`move`), and what it knows about the cell while other calls go on (`knows`).
`Prog.wp` is the weakest precondition in a protocol; loops take an invariant. `adequacy` turns
`wp` proofs of the calls into a ghost run (`Protocol.Run`) of every schedule: what is to be shown of
every interleaving is then shown by induction over ghost runs, three cases in all.
-/
namespace Cell

structure Protocol (V N G : Type) where
  /-- What a call in ghost state `g` knows of the cell, whatever other calls have done since. -/
  knows : G → V → Prop
  /-- The deeds allowed to a call in a ghost state, and the state after them. -/
  move : G → N → Deed V → G → Prop
  learns : ∀ {g n d g'}, move g n d g' → knows g d.before → knows g' d.after
  stable : ∀ {g n d g' h}, move g n d g' → knows g d.before → knows h d.before → knows h d.after

variable {ι V N Req R G α β σ : Type}

/-- Some deed is still allowed. A call whose ghost state is not live can only return. -/
def Protocol.Live (M : Protocol V N G) (g : G) : Prop := ∃ n d g', M.move g n d g'

section wp
variable [DecidableEq V] (M : Protocol V N G)

def Access.wp (n : N) (a : Access V α) (Q : α → G → Prop) (g : G) : Prop :=
  ∀ v spurious, M.knows g v →
    ∃ g', M.move g n (a.perform spurious v).2 g' ∧ Q (a.perform spurious v).1 g'

/-- The program keeps to the protocol from ghost state `g`, and returns in a state with `Q`. A loop
iteration that goes round again must have accessed the cell. -/
def Prog.wp {α : Type} : Prog V N α → (α → G → Prop) → G → Prop
  | .ret a, Q, g => Q a g
  | .access n a, Q, g => a.wp M n Q g
  | .bind p k, Q, g => p.wp (fun a g' => (k a).wp Q g') g
  | .loop body s, Q, g =>
    (∀ s s', (body s).head ≠ .ret (.inl s')) ∧
    ∃ I : _ → G → Prop, I s g ∧ ∀ s g, I s g → (body s).wp (Sum.elim I Q) g

variable {M}

theorem Access.wp_mono {n : N} {a : Access V α} {Q Q' : α → G → Prop} {g : G}
    (hQ : ∀ x g, Q x g → Q' x g) (h : a.wp M n Q g) : a.wp M n Q' g := by
  intro v spurious hv
  obtain ⟨g', hm, hq⟩ := h v spurious hv
  exact ⟨g', hm, hQ _ _ hq⟩

theorem Prog.wp_mono {α : Type} (p : Prog V N α) {Q Q' : α → G → Prop} {g : G}
    (hQ : ∀ x g, Q x g → Q' x g) (h : p.wp M Q g) : p.wp M Q' g := by
  induction p generalizing g with
  | ret a => exact hQ _ _ h
  | access n a => exact Access.wp_mono hQ h
  | bind p k ihp ihk => exact ihp (fun a g' hk => ihk a hQ hk) h
  | loop body s ih =>
    obtain ⟨hp, I, hI, hstep⟩ := h
    refine ⟨hp, I, hI, fun s g hs => ih s ?_ (hstep s g hs)⟩
    rintro (s' | a) g' hx
    · exact hx
    · exact hQ _ _ hx

theorem Prog.wp_bind {p : Prog V N α} {k : α → Prog V N β} {Q₁ : α → G → Prop} {Q : β → G → Prop}
    {g : G} (hp : p.wp M Q₁ g) (hk : ∀ a g', Q₁ a g' → (k a).wp M Q g') : (Prog.bind p k).wp M Q g :=
  Prog.wp_mono p hk hp

/-- A rule for code that keeps to a protocol whatever it returns. -/
theorem Prog.wp_map {p : Prog V N α} {f : α → β} {g : G} (hp : p.wp M (fun _ _ => True) g) :
    (Prog.bind p fun a => .ret (f a)).wp M (fun _ _ => True) g :=
  Prog.wp_bind hp fun _ _ _ => trivial

/-- What `wp` says of the next thing a program does. -/
def Head.wp (M : Protocol V N G) (h : Head V N α) (Q : α → G → Prop) (g : G) : Prop :=
  match h with
  | .ret a => Q a g
  | .access n a k => a.wp M n (fun b g' => (k b).wp M Q g') g
  | .spin _ => False

theorem Prog.wp_head {α : Type} (p : Prog V N α) {Q : α → G → Prop} {g : G} (h : p.wp M Q g) :
    p.head.wp M Q g := by
  induction p generalizing g with
  | ret a => exact h
  | access n a => exact h
  | bind p k ihp ihk =>
    have hp := ihp h
    simp only [Prog.head]
    cases hh : p.head with
    | ret a => exact ihk a (by simpa [hh, Head.wp] using hp)
    | access n a k' => simpa [hh, Head.wp, Prog.wp] using hp
    | spin p' => simp [hh, Head.wp] at hp
  | loop body s ih =>
    obtain ⟨hnospin, I, hI, hstep⟩ := h
    have hb := ih s (hstep s g hI)
    simp only [Prog.head]
    cases hh : (body s).head with
    | ret x =>
      cases x with
      | inl s' => exact absurd hh (hnospin s s')
      | inr a => simpa [hh, Head.wp] using hb
    | spin p' => simp [hh, Head.wp] at hb
    | access n a k' =>
      simp only [hh, Head.wp] at hb ⊢
      refine Access.wp_mono (fun x g' hk => Prog.wp_mono (k' x) ?_ hk) hb
      rintro (s' | a) g'' hx
      · exact ⟨hnospin, I, hx, hstep⟩
      · exact hx

end wp

/-! ## Rules for the compare-and-exchange loop -/

theorem casBody_nospin (n : N) (attempt : V → Attempt V α) (s s' : V) :
    (casBody n attempt s).head ≠ .ret (.inl s') := by
  unfold casBody
  cases attempt s <;> simp [Prog.head]

section rules
variable [DecidableEq V] {M : Protocol V N G}

theorem Prog.wp_load {n : N} {Q : V → G → Prop} {g : G}
    (h : ∀ v, M.knows g v → ∃ g', M.move g n (.load v) g' ∧ Q v g') :
    (Prog.access n .load).wp M Q g := fun v _ hv => h v hv

/-- What a read of `v` leads to: the result if the attempt stops there, and the ghost state `read v` if it
is to be exchanged. -/
def Attempt.Read (attempt : V → Attempt V α) (Q : α → G → Prop) (read : V → G) (v : V) (g : G) : Prop :=
  match attempt v with
  | .stop a => Q a g
  | .write _ _ => g = read v

/-- **The compare-and-exchange loop**, with the ghost state after a read depending on the value read. The
first read is a load, every later one an exchange that failed. -/
theorem casLoop_wp_read {n : N} {attempt : V → Attempt V α} {Q : α → G → Prop} {g : G} (read : V → G)
    (hload : ∀ v, M.knows g v → ∃ g', M.move g n (.load v) g' ∧ Attempt.Read attempt Q read v g')
    (hfail : ∀ old new a, attempt old = .write new a → ∀ v, M.knows (read old) v →
      ∃ g', M.move (read old) n (.fail old v) g' ∧ Attempt.Read attempt Q read v g')
    (hwrite : ∀ old new a, attempt old = .write new a → M.knows (read old) old →
      ∃ g', M.move (read old) n (.exchange old new) g' ∧ Q a g') :
    (casLoop n attempt).wp M Q g := by
  apply Prog.wp_load
  intro v hv
  obtain ⟨g', hm, hI⟩ := hload v hv
  refine ⟨g', hm, casBody_nospin n attempt, Attempt.Read attempt Q read, hI, fun old g₁ h₁ => ?_⟩
  simp only [Attempt.Read] at h₁
  cases ha : attempt old with
  | stop a => simpa [casBody, ha, Prog.wp] using h₁
  | write new a =>
    simp only [ha] at h₁
    subst h₁
    simp only [casBody, ha, Prog.bind_eq_bind, Prog.wp]
    intro w spurious hw
    simp only [Access.perform]
    split
    · rename_i hc
      obtain ⟨rfl, -⟩ := hc
      exact hwrite w new a ha hw
    · exact hfail old new a ha w hw

/-- The same where a read need not move the ghost state unless it ends the loop. -/
theorem casLoop_wp {n : N} {attempt : V → Attempt V α} {Q : α → G → Prop} {g : G}
    (h : ∀ v, M.knows g v →
      match attempt v with
      | .stop a => ∀ d : Deed V, d.before = v → d.writes = false → ∃ g', M.move g n d g' ∧ Q a g'
      | .write new a => (∃ g', M.move g n (.exchange v new) g' ∧ Q a g') ∧
          ∀ d : Deed V, d.before = v → d.writes = false → M.move g n d g) :
    (casLoop n attempt).wp M Q g := by
  have hread : ∀ v, M.knows g v → ∀ d : Deed V, d.before = v → d.writes = false →
      ∃ g', M.move g n d g' ∧ Attempt.Read attempt Q (fun _ => g) v g' := by
    intro v hv d hd hw
    have hv' := h v hv
    simp only [Attempt.Read]
    split at hv'
    · exact hv' d hd hw
    · exact ⟨g, hv'.2 d hd hw, rfl⟩
  refine casLoop_wp_read (fun _ => g) ?_ ?_ ?_
  · intro v hv
    exact hread v hv (.load v) rfl rfl
  · intro old new a _ v hv
    exact hread v hv (.fail old v) rfl rfl
  · intro old new a ha hold
    have hold' := h old hold
    simp only [ha] at hold'
    exact hold'.1

end rules

/-! ## Ghost runs -/

namespace Protocol
variable (M : Protocol V N G) (start : Req → G) (post : Req → R → G → Prop)

/-- A call that has just moved to ghost state `g` goes on, still live, or returns. -/
inductive Settled (i : ι) (n : Nat) (req : Req) (g : G) :
    List (Event ι V N Req R) → Option (Req × G) → Prop
  | goesOn (h : M.Live g) : Settled i n req g [] (some (req, g))
  | returns {r : R} (h : post req r g) : Settled i n req g [.ret i n req r] none

/-- Traces of the pool with the ghost states of the calls in progress. -/
inductive Run [DecidableEq ι] (v₀ : V) :
    List (Event ι V N Req R) → V → (ι → Option (Req × G)) → Prop
  | init : Run v₀ [] v₀ fun _ => none
  | call {tr v γ i n req evs s} (h : Run v₀ tr v γ) (hi : γ i = none)
      (hs : M.Settled post i n req (start req) evs s) :
      Run v₀ (tr ++ .call i n req :: evs) v (Function.update γ i s)
  | did {tr v γ i n req g site d g' evs s} (h : Run v₀ tr v γ) (hi : γ i = some (req, g))
      (hd : d.before = v) (hk : M.knows g v) (hm : M.move g site d g')
      (hs : M.Settled post i n req g' evs s) :
      Run v₀ (tr ++ .did i n site d :: evs) d.after (Function.update γ i s)

variable {M start post}

/-- Induction over ghost runs one event at a time. -/
theorem Run.events [DecidableEq ι] {v₀ : V}
    (P : List (Event ι V N Req R) → V → (ι → Option (Req × G)) → Prop)
    (hinit : P [] v₀ fun _ => none)
    (hcall : ∀ {tr v γ} (i n req), P tr v γ → γ i = none →
      P (tr ++ [.call i n req]) v (Function.update γ i (some (req, start req))))
    (hdid : ∀ {tr v γ} (i n) {req g site d g'}, P tr v γ → γ i = some (req, g) → d.before = v →
      M.knows g v → M.move g site d g' →
      P (tr ++ [.did i n site d]) d.after (Function.update γ i (some (req, g'))))
    (hret : ∀ {tr v γ} (i n) {req g r}, P tr v γ → γ i = some (req, g) → post req r g →
      P (tr ++ [.ret i n req r]) v (Function.update γ i none))
    {tr v γ} (h : M.Run start post v₀ tr v γ) : P tr v γ := by
  -- An event after which the call returns is that event and then the return.
  have hsettle : ∀ {tr v γ} {i : ι} {n req g evs s}, P tr v (Function.update γ i (some (req, g))) →
      M.Settled post i n req g evs s → P (tr ++ evs) v (Function.update γ i s) := by
    intro tr v γ i n req g evs s hP hs
    cases hs with
    | goesOn => simpa using hP
    | returns hr => simpa using hret i n hP (by simp) hr
  induction h with
  | init => exact hinit
  | call _ hi hs ih => simpa using hsettle (hcall _ _ _ ih hi) hs
  | did _ hi hd hk hm hs ih => simpa using hsettle (hdid _ _ ih hi hd hk hm) hs

/-- Every call that has returned has done so with its postcondition. -/
theorem Run.returned [DecidableEq ι] {v₀ v : V} {tr : List (Event ι V N Req R)} {γ : ι → Option (Req × G)}
    (h : M.Run start post v₀ tr v γ) :
    ∀ x ∈ returns tr, ∃ g, post x.request x.response g := by
  refine h.events (fun tr _ _ => ∀ x ∈ returns tr, ∃ g, post x.request x.response g) (by simp) ?_ ?_ ?_
  · intro tr v γ i n req ih _
    simpa using ih
  · intro tr v γ i n req g site d g' ih _ _ _ _
    simpa using ih
  · intro tr v γ i n req g r ih _ hr x hx
    rw [returns_append, List.mem_append] at hx
    rcases hx with hx | hx
    · exact ih x hx
    · obtain rfl := List.mem_singleton.1 hx
      exact ⟨g, hr⟩

end Protocol

/-- What holds of every call in progress still does when one of them moves on to a state it holds
of, or is done. -/
theorem forall_update [DecidableEq ι] {γ : ι → Option (Req × G)} {P : Req → G → Prop} (i : ι)
    {s : Option (Req × G)} (hγ : ∀ j req g, γ j = some (req, g) → P req g)
    (hs : ∀ req g, s = some (req, g) → P req g) :
    ∀ j req g, Function.update γ i s j = some (req, g) → P req g :=
  (Function.forall_update_iff γ fun _ s => ∀ req g, s = some (req, g) → P req g).2
    ⟨hs, fun j _ => hγ j⟩

/-- The ghost states follow the trace. -/
theorem current_update [DecidableEq ι] {tr : List (Event ι V N Req R)} {γ : ι → Option (Req × G)}
    (hγ : ∀ j, (γ j).map Prod.fst = current j tr) (e : Event ι V N Req R) {s : Option (Req × G)}
    (hs : s.map Prod.fst = e.track e.thread (current e.thread tr)) :
    ∀ j, (Function.update γ e.thread s j).map Prod.fst = current j (tr ++ [e]) := by
  refine (Function.forall_update_iff γ fun j s => s.map Prod.fst = current j (tr ++ [e])).2
    ⟨?_, fun j hji => ?_⟩
  · rw [current_concat, hs]
  · rw [current_concat, Event.track_of_ne (Ne.symm hji), hγ j]

/-- `Run.events` where the trace says which call each access is made for. -/
theorem Protocol.Run.events_labeled [DecidableEq ι] {M : Protocol V N G} {start : Req → G}
    {post : Req → R → G → Prop} {v₀ : V} {calls : ι → List Req}
    (P : List (Event ι V N Req R) → V → (ι → Option (Req × G)) → Prop)
    (hinit : P [] v₀ fun _ => none)
    (hcall : ∀ {tr v γ} (i n req), P tr v γ → γ i = none →
      P (tr ++ [.call i n req]) v (Function.update γ i (some (req, start req))))
    (hdid : ∀ {tr v γ} (i n) {req g site d g'}, P tr v γ → γ i = some (req, g) → (calls i)[n]? = some req →
      d.before = v → M.knows g v → M.move g site d g' →
      P (tr ++ [.did i n site d]) d.after (Function.update γ i (some (req, g'))))
    (hret : ∀ {tr v γ} (i n) {req g r}, P tr v γ → γ i = some (req, g) → post req r g →
      P (tr ++ [.ret i n req r]) v (Function.update γ i none))
    {tr v γ} (h : M.Run start post v₀ tr v γ) (hlabeled : Labeled calls tr) : P tr v γ := by
  suffices hall : Labeled calls tr → (∀ j, (γ j).map Prod.fst = current j tr) ∧ P tr v γ from
    (hall hlabeled).2
  refine h.events (fun tr v γ => Labeled calls tr → (∀ j, (γ j).map Prod.fst = current j tr) ∧ P tr v γ)
    ?_ ?_ ?_ ?_
  · exact fun _ => ⟨fun j => rfl, hinit⟩
  · intro tr v γ i n req ih hi hl
    obtain ⟨hcurrent, hP⟩ := ih hl.of_concat
    refine ⟨current_update hcurrent (.call i n req) ?_, hcall i n req hP hi⟩
    simp [Event.track, Event.thread]
  · intro tr v γ i n req g site d g' ih hi hd hk hm hl
    obtain ⟨hcurrent, hP⟩ := ih hl.of_concat
    have hworking : current i tr = some req := by rw [← hcurrent i, hi, Option.map_some]
    have hreq : (calls i)[n]? = some req := by rw [← hl tr [] i n _ _ rfl, hworking]
    refine ⟨current_update hcurrent (.did i n site d) ?_, hdid i n hP hi hreq hd hk hm⟩
    exact hworking.symm
  · intro tr v γ i n req g r ih hi hr hl
    obtain ⟨hcurrent, hP⟩ := ih hl.of_concat
    refine ⟨current_update hcurrent (.ret i n req r) ?_, hret i n hP hi hr⟩
    simp [Event.track, Event.thread]

/-! ## Adequacy -/

section adequacy
variable [DecidableEq V] (M : Protocol V N G) (post : Req → R → G → Prop)

/-- A thread and the ghost state of its call, with the cell at `v`. -/
def Fits (v : V) (t : Thread V N Req R) (s : Option (Req × G)) : Prop :=
  match t.cur with
  | none => s = none
  | some (req, p) =>
    ∃ g, s = some (req, g) ∧ p.wp M (post req) g ∧ M.knows g v ∧ ∀ r, p.head ≠ .ret r

variable {M post}

theorem live_of_wp {p : Prog V N α} {Q : α → G → Prop} {g : G} {v : V} (h : p.wp M Q g)
    (hk : M.knows g v) (hr : ∀ r, p.head ≠ .ret r) : M.Live g := by
  have hh := p.wp_head h
  cases hp : p.head with
  | ret r => exact absurd hp (hr r)
  | spin p' => simp [hp, Head.wp] at hh
  | access n a k =>
    simp only [hp, Head.wp] at hh
    obtain ⟨g', hm, -⟩ := hh v false hk
    exact ⟨n, _, g', hm⟩

theorem settle_settled [DecidableEq ι] (c : Pool ι V N Req R) (i : ι) (todo : List Req) (made : Nat)
    {req : Req} {p : Prog V N R} {g : G} (h : p.wp M (post req) g) (hk : M.knows g c.cell) :
    ∃ evs s t, M.Settled post i made req g evs s ∧ Fits M post c.cell t s ∧ t.todo = todo ∧
      c.settle i todo made req p = ⟨c.cell, Function.update c.threads i t, c.trace ++ evs⟩ := by
  rcases c.settle_cases i todo made req p with ⟨r, hr, he⟩ | ⟨hr, he⟩
  · have hpost : post req r g := by simpa [hr, Head.wp] using p.wp_head h
    exact ⟨_, none, ⟨todo, made + 1, none⟩, .returns hpost, rfl, rfl, he⟩
  · exact ⟨[], _, ⟨todo, made, some (req, p)⟩, .goesOn (live_of_wp h hk hr), ⟨g, rfl, h, hk, hr⟩, rfl,
      by simpa using he⟩

/-- The pool invariant behind `adequacy`: a ghost run of the trace so far whose ghost states fit the
threads, and `wp` for every call still to come. -/
def Accounted [DecidableEq ι] (M : Protocol V N G) (start : Req → G) (post : Req → R → G → Prop)
    (code : Req → Prog V N R) (v₀ : V) (c : Pool ι V N Req R) : Prop :=
  (∀ i, ∀ req ∈ (c.threads i).todo, (code req).wp M (post req) (start req)) ∧
  ∃ γ, M.Run start post v₀ c.trace c.cell γ ∧ ∀ i, Fits M post c.cell (c.threads i) (γ i)

/-- A call's knowledge survives the deeds of another. -/
theorem Fits.stable {v : V} {t : Thread V N Req R} {s : Option (Req × G)} {g g' : G} {n : N} {d : Deed V}
    (h : Fits M post v t s) (hm : M.move g n d g') (hk : M.knows g v) (hd : d.before = v) :
    Fits M post d.after t s := by
  subst hd
  unfold Fits at h ⊢
  cases hc : t.cur with
  | none => simpa [hc] using h
  | some rp =>
    simp only [hc] at h ⊢
    obtain ⟨gt, hgt, hwp, hkt, hr⟩ := h
    exact ⟨gt, hgt, hwp, M.stable hm hk hkt, hr⟩

/-- Thread `i` has moved on to `t`, and the others have not moved. -/
theorem accounted_update [DecidableEq ι] {start : Req → G} {code : Req → Prog V N R} {v₀ v : V}
    {threads : ι → Thread V N Req R} {trace : List (Event ι V N Req R)} {γ : ι → Option (Req × G)}
    {i : ι} {t : Thread V N Req R} {s : Option (Req × G)}
    (htodo : ∀ j, ∀ req ∈ (threads j).todo, (code req).wp M (post req) (start req))
    (hi : ∀ req ∈ t.todo, (code req).wp M (post req) (start req))
    (hrun : M.Run start post v₀ trace v (Function.update γ i s)) (hfit : Fits M post v t s)
    (hothers : ∀ j, j ≠ i → Fits M post v (threads j) (γ j)) :
    Accounted M start post code v₀ ⟨v, Function.update threads i t, trace⟩ := by
  refine ⟨?_, _, hrun, ?_⟩
  · exact (Function.forall_update_iff threads fun _ (t : Thread V N Req R) => ∀ req ∈ t.todo,
      (code req).wp M (post req) (start req)).2 ⟨hi, fun j _ => htodo j⟩
  · intro j
    by_cases hji : j = i
    · subst hji
      simpa using hfit
    · simpa [hji] using hothers j hji

theorem turn_accounted [DecidableEq ι] {start : Req → G} {code : Req → Prog V N R} {v₀ : V}
    (c : Pool ι V N Req R) (hstart : ∀ req, M.knows (start req) c.cell) (i : ι) (spurious : Bool)
    (h : Accounted M start post code v₀ c) :
    Accounted M start post code v₀ (c.turn code i spurious) := by
  obtain ⟨htodo, γ, hrun, hfit⟩ := h
  have hfi := hfit i
  rcases c.turn_cases code i spurious with
    ⟨-, -, he⟩ | ⟨req, rest, hc, ht, he⟩ | ⟨req, p, β, site, a, k, hc, hp, he⟩ |
      ⟨req, p, p', hc, hp, -⟩
  · rw [he]
    exact ⟨htodo, γ, hrun, hfit⟩
  · have hwp := htodo i req (by simp [ht])
    obtain ⟨evs, s, t, hset, hft, httodo, hst⟩ := settle_settled
      { c with trace := c.trace ++ [.call i (c.threads i).made req] } i rest (c.threads i).made hwp
      (hstart req)
    have hi : γ i = none := by simpa [Fits, hc] using hfi
    rw [he, hst]
    refine accounted_update htodo ?_ (by simpa using hrun.call hi hset) hft fun j _ => hfit j
    rw [httodo]
    exact fun req' hreq => htodo i req' (by simp [ht, hreq])
  · simp only [Fits, hc] at hfi
    obtain ⟨g, hg, hwp, hk, -⟩ := hfi
    have hh := p.wp_head hwp
    simp only [hp, Head.wp] at hh
    obtain ⟨g', hm, hwp'⟩ := hh c.cell spurious hk
    have hb := a.perform_before spurious c.cell
    have hk' := M.learns hm (by rw [hb]; exact hk)
    obtain ⟨evs, s, t, hset, hft, httodo, hst⟩ := settle_settled
      ⟨(a.perform spurious c.cell).2.after, c.threads,
        c.trace ++ [.did i (c.threads i).made site (a.perform spurious c.cell).2]⟩
      i (c.threads i).todo (c.threads i).made hwp' hk'
    rw [he, hst]
    refine accounted_update htodo ?_ (by simpa using hrun.did hg hb hk hm hset) hft
      fun j _ => (hfit j).stable hm hk hb
    rw [httodo]
    exact htodo i
  · -- `wp` leaves no turn without an access.
    simp only [Fits, hc] at hfi
    obtain ⟨g, -, hwp, -, hr⟩ := hfi
    have hh := p.wp_head hwp
    rcases hp with ⟨r, hp⟩ | hp
    · exact absurd hp (hr r)
    · simp [hp, Head.wp] at hh

omit [DecidableEq V] in
/-- What is true of the cell at the start and after every move is true of it throughout a ghost run. -/
theorem Protocol.Run.cell [DecidableEq ι] {start : Req → G} {I : V → Prop} {v₀ : V} (hI : I v₀)
    (hkeep : ∀ {g n d g'}, M.move g n d g' → M.knows g d.before → I d.after)
    {tr : List (Event ι V N Req R)} {v γ} (h : M.Run start post v₀ tr v γ) : I v := by
  refine h.events (fun _ v _ => I v) hI ?_ ?_ ?_
  · exact fun _ _ _ hv _ => hv
  · rintro _ _ _ _ _ _ _ _ _ _ _ _ rfl hk hm
    exact hkeep hm hk
  · exact fun _ _ _ _ _ hv _ _ => hv

/-- **Adequacy**, for calls that rely on an invariant `I` of the cell. If every call of every thread keeps to
the protocol, the trace of any schedule is that of a ghost run. -/
theorem adequacy_of_inv [DecidableEq ι] (M : Protocol V N G) (start : Req → G) (post : Req → R → G → Prop)
    {code : Req → Prog V N R} {calls : ι → List Req} {I : V → Prop}
    (hkeep : ∀ {g n d g'}, M.move g n d g' → M.knows g d.before → I d.after)
    (hstart : ∀ req v, I v → M.knows (start req) v)
    (hcode : ∀ i, ∀ req ∈ calls i, (code req).wp M (post req) (start req)) {v₀ : V} (hI : I v₀)
    (sched : List (ι × Bool)) :
    ∃ γ, M.Run start post v₀ (Pool.run code sched (.init v₀ calls)).trace
      (Pool.run code sched (.init v₀ calls)).cell γ ∧
      ∀ i, Fits M post (Pool.run code sched (.init v₀ calls)).cell
        ((Pool.run code sched (.init v₀ calls)).threads i) (γ i) := by
  refine (Pool.run_induction (Accounted M start post code v₀) (fun c i spurious h => ?_)
    ⟨hcode, fun _ => none, .init, fun i => by simp [Fits, Pool.init]⟩ sched).2
  obtain ⟨-, γ, hrun, -⟩ := id h
  exact turn_accounted c (fun req => hstart req _ (hrun.cell hI hkeep)) i spurious h

/-- **Adequacy.** If every call of every thread keeps to the protocol, the trace of any schedule is
that of a ghost run. -/
theorem adequacy [DecidableEq ι] (M : Protocol V N G) (start : Req → G) (post : Req → R → G → Prop)
    {code : Req → Prog V N R} {calls : ι → List Req}
    (hstart : ∀ req v, M.knows (start req) v)
    (hcode : ∀ i, ∀ req ∈ calls i, (code req).wp M (post req) (start req)) (v₀ : V)
    (sched : List (ι × Bool)) :
    ∃ γ, M.Run start post v₀ (Pool.run code sched (.init v₀ calls)).trace
      (Pool.run code sched (.init v₀ calls)).cell γ ∧
      ∀ i, Fits M post (Pool.run code sched (.init v₀ calls)).cell
        ((Pool.run code sched (.init v₀ calls)).threads i) (γ i) :=
  adequacy_of_inv (I := fun _ => True) M start post (fun _ _ => trivial) (fun req v _ => hstart req v) hcode
    trivial sched

end adequacy
end Cell
