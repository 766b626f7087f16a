import Gardal.Linearizability
import Gardal.Rules
/-!
# Whose debt a borrower waits for

`return_tokens` returns the zero time it commits, and the borrowing loop drops it. The wait comes from
`time_when_bucket`, which reads the cell again, so a borrower that another one overtakes between the
two accesses is told to wait for both debts (`foreign_debt`). `own_debt_iff` says that this is the only
way to get a wait that is not one's own: the wait is `max(0, Z - now)`, with `Z` the zero time the
call committed, exactly when nothing is written between its commit and its return (it reads the cell
in the turn it returns in).
-/
namespace Gardal
open Cell TokenBucketStorage RawTokenBucket

/-- The wait a call returns, no wait counting as zero. -/
def Response.waited : Response → ℚ
  | .consumeWithBorrow (.ok (some wait)) => wait.secs
  | .saturatingConsumeWithBorrow (_, wait) => wait.secs
  | _ => 0

/-! ## The protocol -/

/-- How far a call has come: it drains, it has found the bucket empty, it has taken a debt that is paid
at `zeroTime`, it has read `zeroTime` for the answer. -/
inductive Phase
  | draining
  | dry
  | owes (zeroTime : ℚ)
  | answered (zeroTime : ℚ)

structure Borrower where
  now : ℚ
  phase : Phase

inductive DebtMove (now : ℚ) : Phase → Site → Deed ℚ → Phase → Prop
  | look {d : Deed ℚ} (hd : d.writes = false) : DebtMove now .draining .consume d .draining
  | drain {v w : ℚ} (h : v < w) : DebtMove now .draining .consume (.exchange v w) .draining
  | empty {d : Deed ℚ} (hd : d.writes = false) (h : now ≤ d.before) :
      DebtMove now .draining .consume d .dry
  | retry {d : Deed ℚ} (hd : d.writes = false) : DebtMove now .dry .returnTokens d .dry
  | borrow {v w : ℚ} (h : v < w) : DebtMove now .dry .returnTokens (.exchange v w) (.owes w)
  | answer {z v : ℚ} : DebtMove now (.owes z) .timeWhenBucket (.load v) (.answered v)

section
variable {now : ℚ} {p p' : Phase} {site : Site} {d : Deed ℚ}

/-- Every update of a borrower raises the zero time. -/
theorem DebtMove.rises (h : DebtMove now p site d p') :
    d.before ≤ d.after ∧ (d.writes = true → d.before < d.after) := by
  cases h with
  | look hd => exact ⟨(d.after_eq_before hd).ge, fun h => by simp [hd] at h⟩
  | drain h => exact ⟨h.le, fun _ => h⟩
  | empty hd => exact ⟨(d.after_eq_before hd).ge, fun h => by simp [hd] at h⟩
  | retry hd => exact ⟨(d.after_eq_before hd).ge, fun h => by simp [hd] at h⟩
  | borrow h => exact ⟨h.le, fun _ => h⟩
  | answer => exact ⟨le_rfl, fun h => by simp at h⟩

/-- What a call knows of the cell from its phase. -/
def Phase.Knows (now : ℚ) (v : ℚ) : Phase → Prop
  | .dry => now ≤ v
  | .owes z => now < z ∧ z ≤ v
  | _ => True

theorem Phase.Knows.rise {v w : ℚ} (h : p.Knows now v) (hvw : v ≤ w) : p.Knows now w := by
  cases p with
  | draining => trivial
  | dry => exact le_trans h hvw
  | owes z => exact ⟨h.1, h.2.trans hvw⟩
  | answered z => trivial

theorem DebtMove.learns (h : DebtMove now p site d p') (hk : p.Knows now d.before) :
    p'.Knows now d.after := by
  cases h with
  | look hd => trivial
  | drain h => trivial
  | empty hd h => rwa [d.after_eq_before hd]
  | retry hd => rwa [d.after_eq_before hd]
  | borrow h => exact ⟨lt_of_le_of_lt hk h, le_rfl⟩
  | answer => trivial

end

def debtProtocol : Protocol ℚ Site Borrower where
  knows g v := g.phase.Knows g.now v
  move g site d g' := g'.now = g.now ∧ DebtMove g.now g.phase site d g'.phase
  learns := by
    rintro ⟨now, p⟩ site d ⟨now', p'⟩ ⟨rfl, hm⟩ hk
    exact hm.learns hk
  stable hm _ hk := hk.rise hm.2.rises.1

/-- A call that has answered returns the wait up to the time it read; a call that only drained may
return anything. -/
def Borrower.Post (req : Request) (r : Response) (g : Borrower) : Prop :=
  g.now = req.now ∧
  match g.phase with
  | .draining => True
  | .answered z => r.waited = max 0 (z - req.now)
  | _ => False

/-! ## Every borrowing call keeps to it -/

theorem borrowLoop_debt {R : Type} (limit : Limit) (now : ℚ) {k : ℚ} {borrowed : ℚ → R} {paid : R}
    (hk : 0 ≤ k) :
    (Prog.loop (borrowStep now limit borrowed paid) k).wp debtProtocol
      (fun r g => g.now = now ∧ (g.phase = .draining ∨
        ∃ z, g.phase = .answered z ∧ r = borrowed (max (z - now) 0))) ⟨now, .draining⟩ := by
  refine borrowLoop_wp (fun _ g => g = ⟨now, .draining⟩) (fun _ g => g = ⟨now, .dry⟩)
    (fun g => ∃ z, g = ⟨now, .owes z⟩) ?_ ?_ ?_ ?_ ?_ hk rfl
  · rintro k g v - rfl - hle d rfl hw
    exact ⟨⟨now, .dry⟩, ⟨rfl, .empty hw hle⟩, rfl⟩
  · rintro k g v c rfl - - hc - -
    exact ⟨⟨⟨now, .draining⟩, ⟨rfl, .drain (limit.lt_charged hc)⟩, rfl⟩, fun d _ hw => ⟨rfl, .look hw⟩⟩
  · rintro k g v hk rfl -
    have hd : 0 < k / limit.rate := div_pos hk limit.rate_pos
    exact ⟨⟨⟨now, .owes (v + k / limit.rate)⟩, ⟨rfl, .borrow (by linarith)⟩, _, rfl⟩,
      fun d _ hw => ⟨rfl, .retry hw⟩⟩
  · rintro g v ⟨z, rfl⟩ -
    exact ⟨⟨now, .answered v⟩, ⟨rfl, .answer⟩, rfl, Or.inr ⟨v, rfl, rfl⟩⟩
  · rintro g rfl
    exact ⟨rfl, Or.inl rfl⟩

theorem newChecked_waited (x : ℚ) :
    (Response.consumeWithBorrow (.ok (Nanos.newChecked (max x 0)))).waited = max 0 x := by
  rw [max_comm 0 x]
  unfold Nanos.newChecked
  split
  · rename_i h
    exact (le_antisymm h (le_max_right x 0)).symm
  · rfl

theorem code_debt (limit : Limit) {req : Request} (h : req.call.borrows = true) :
    (req.code limit).wp debtProtocol (Borrower.Post req) ⟨req.now, .draining⟩ := by
  obtain ⟨call, now⟩ := req
  cases call with
  | consumeWithBorrow k =>
    simp only [Request.code, consumeWithBorrow]
    by_cases hb : limit.burst < k.toRat
    · rw [if_pos hb]
      exact ⟨rfl, trivial⟩
    · rw [if_neg hb]
      refine Prog.wp_bind (borrowLoop_debt limit now k.toRat_pos.le) ?_
      rintro r ⟨now', p⟩ ⟨rfl, hp⟩
      rcases hp with hp | ⟨z, hp, rfl⟩ <;> obtain rfl := hp
      · exact ⟨rfl, trivial⟩
      · exact ⟨rfl, newChecked_waited _⟩
  | saturatingConsumeWithBorrow k =>
    refine Prog.wp_bind (borrowLoop_debt limit now (le_min k.toRat_pos.le limit.burst_pos.le)) ?_
    rintro r ⟨now', p⟩ ⟨rfl, hp⟩
    rcases hp with hp | ⟨z, hp, rfl⟩ <;> obtain rfl := hp
    · exact ⟨rfl, trivial⟩
    · exact ⟨rfl, max_comm _ _⟩
  | _ => cases h

/-! ## Every run -/

abbrev Trace (ι : Type) := List (Event ι ℚ Site Request Response)

section
variable {ι : Type} {i : ι} {tr mid : Trace ι} {e : Event ι ℚ Site Request Response} {v w : ℚ}
  {s s' : Option (Request × Borrower)}

/-- Thread `i` returns from no call in this part of the trace. -/
def NoReturn (i : ι) (mid : Trace ι) : Prop := ∀ e ∈ mid, e.thread = i → e.isRet = false

/-- Nothing is written in this part of the trace. -/
def NoWrites (mid : Trace ι) : Prop := ∀ e ∈ mid, e.writes = false

theorem noWrites_concat : NoWrites (mid ++ [e]) ↔ NoWrites mid ∧ e.writes = false := by
  simp [NoWrites, or_imp, forall_and]

theorem noReturn_concat (h : NoReturn i (mid ++ [e])) :
    NoReturn i mid ∧ (e.thread = i → e.isRet = false) :=
  ⟨fun e' hmem => h e' (by simp [hmem]), h e (by simp)⟩

/-- While thread `i` has not returned since it took a debt, it still owes it, and the cell tells
whether anybody has written since. -/
def DebtOf (i : ι) (tr : Trace ι) (v : ℚ) (s : Option (Request × Borrower)) : Prop :=
  ∀ pre mid n z Z, tr = pre ++ .did i n .returnTokens (.exchange z Z) :: mid → NoReturn i mid →
    (∃ req now, s = some (req, ⟨now, .owes Z⟩)) ∧ Z ≤ v ∧ (v = Z ↔ NoWrites mid)

theorem DebtOf.other (h : DebtOf i tr v s) (hi : e.thread ≠ i) (hw : e.writes = true → v < w)
    (hn : e.writes = false → w = v) : DebtOf i (tr ++ [e]) w s := by
  intro pre mid n z Z hsplit hret
  rcases concat_eq_append_cons hsplit with ⟨-, rfl, -⟩ | ⟨mid', rfl, htr⟩
  · exact absurd rfl hi
  · obtain ⟨howes, hZ, hiff⟩ := h pre mid' n z Z htr (noReturn_concat hret).1
    rw [noWrites_concat]
    cases hb : e.writes with
    | true =>
      have hlt := hw hb
      refine ⟨howes, by linarith, ?_⟩
      constructor
      · intro heq
        linarith
      · intro h
        simp at h
    | false => exact ⟨howes, by rwa [hn hb], by simpa [hn hb] using hiff⟩

/-- A call that owes nothing yet owes only what it commits. -/
theorem DebtOf.own (h : DebtOf i tr v s) (hs : ∀ req now Z, s ≠ some (req, ⟨now, .owes Z⟩))
    (hnew : ∀ n z Z, e = .did i n .returnTokens (.exchange z Z) →
      (∃ req now, s' = some (req, ⟨now, .owes Z⟩)) ∧ w = Z) : DebtOf i (tr ++ [e]) w s' := by
  intro pre mid n z Z hsplit hret
  rcases concat_eq_append_cons hsplit with ⟨-, he, rfl⟩ | ⟨mid', rfl, htr⟩
  · obtain ⟨howes, rfl⟩ := hnew n z Z he.symm
    exact ⟨howes, le_rfl, by simp [NoWrites]⟩
  · obtain ⟨⟨req, now, howes⟩, -⟩ := h pre mid' n z Z htr (noReturn_concat hret).1
    exact absurd howes (hs req now Z)

theorem debtOf_ret (hi : e.thread = i) (hret : e.isRet = true) : DebtOf i (tr ++ [e]) w s := by
  intro pre mid n z Z hsplit hno
  rcases concat_eq_append_cons hsplit with ⟨-, rfl, -⟩ | ⟨mid', rfl, -⟩
  · cases hret
  · rw [(noReturn_concat hno).2 hi] at hret
    cases hret

/-- Every call that took a debt and returned was told its own wait exactly when nobody wrote in
between. -/
def Waits (tr : Trace ι) : Prop :=
  ∀ pre mid post i n z Z m req r,
    tr = pre ++ .did i n .returnTokens (.exchange z Z) :: (mid ++ .ret i m req r :: post) →
    NoReturn i mid → (r.waited = max 0 (Z - req.now) ↔ NoWrites mid)

theorem Waits.concat (h : Waits tr) (he : e.isRet = false) : Waits (tr ++ [e]) := by
  intro pre mid post i n z Z m req r hsplit
  have hsplit' : tr ++ [e] = (pre ++ .did i n .returnTokens (.exchange z Z) :: mid) ++
      .ret i m req r :: post := by simpa using hsplit
  rcases concat_eq_append_cons hsplit' with ⟨-, rfl, -⟩ | ⟨post', rfl, htr⟩
  · cases he
  · exact h pre mid post' i n z Z m req r (by simpa using htr)

theorem Waits.ret (h : Waits tr) {m : Nat} {req : Request} {r : Response}
    (hr : ∀ pre mid n z Z, tr = pre ++ .did i n .returnTokens (.exchange z Z) :: mid → NoReturn i mid →
      (r.waited = max 0 (Z - req.now) ↔ NoWrites mid)) : Waits (tr ++ [.ret i m req r]) := by
  intro pre mid post j n z Z m' req' r' hsplit
  have hsplit' : tr ++ [.ret i m req r] = (pre ++ .did j n .returnTokens (.exchange z Z) :: mid) ++
      .ret j m' req' r' :: post := by simpa using hsplit
  rcases concat_eq_append_cons hsplit' with ⟨htr, heq, -⟩ | ⟨post', rfl, htr⟩
  · obtain ⟨rfl, rfl, rfl, rfl⟩ := Event.ret.inj heq
    exact hr pre mid n z Z htr.symm
  · exact h pre mid post' j n z Z m' req' r' (by simpa using htr)

end

/-- A borrower overtaken by nobody reads the zero time it committed, and one overtaken reads a later
one. -/
theorem answer_iff {ι : Type} {i : ι} {mid : Trace ι} {n : Nat} {req : Request} {r : Response}
    {v Z now : ℚ} (hknows : now < Z ∧ Z ≤ v) (hnow : now = req.now)
    (hr : r.waited = max 0 (v - req.now)) (hiff : v = Z ↔ NoWrites mid) :
    r.waited = max 0 (Z - req.now) ↔ NoWrites (mid ++ [.did i n .timeWhenBucket (.load v)]) := by
  subst hnow
  obtain ⟨h1, h2⟩ := hknows
  rw [hr, max_eq_right (by linarith), max_eq_right (by linarith), noWrites_concat, ← hiff, sub_left_inj]
  simp [Event.writes]

section
variable {ι : Type} [DecidableEq ι] {zt v w : ℚ} {tr : Trace ι} {γ : ι → Option (Request × Borrower)}
  {i : ι} {e : Event ι ℚ Site Request Response}

/-- After an event of thread `i` its call goes on, or returns and owes nothing any more. -/
theorem settled_waits (hothers : ∀ j, j ≠ i → DebtOf j (tr ++ [e]) w (γ j)) (hwaits : Waits (tr ++ [e]))
    {n : Nat} {req : Request} {g : Borrower} {evs : Trace ι} {s : Option (Request × Borrower)}
    (hs : debtProtocol.Settled Borrower.Post i n req g evs s)
    (hlive : debtProtocol.Live g → DebtOf i (tr ++ [e]) w (some (req, g)))
    (hret : ∀ r, Borrower.Post req r g → ∀ pre mid n z Z,
      tr ++ [e] = pre ++ .did i n .returnTokens (.exchange z Z) :: mid → NoReturn i mid →
      (r.waited = max 0 (Z - req.now) ↔ NoWrites mid)) :
    (∀ j, DebtOf j (tr ++ e :: evs) w (Function.update γ i s j)) ∧ Waits (tr ++ e :: evs) := by
  cases hs with
  | goesOn hl =>
    refine ⟨?_, hwaits⟩
    exact (Function.forall_update_iff γ fun j s => DebtOf j (tr ++ [e]) w s).2 ⟨hlive hl, hothers⟩
  | @returns r hpost =>
    have hcons : tr ++ [e, .ret i n req r] = tr ++ [e] ++ [.ret i n req r] := by simp
    rw [hcons]
    refine ⟨?_, hwaits.ret (hret r hpost)⟩
    refine (Function.forall_update_iff γ fun j s => DebtOf j (tr ++ [e] ++ [.ret i n req r]) w s).2
      ⟨debtOf_ret rfl rfl, fun j hji => ?_⟩
    exact (hothers j hji).other (Ne.symm hji) (by simp [Event.writes]) fun _ => rfl

theorem run_waits (h : debtProtocol.Run (fun req => ⟨req.now, .draining⟩) Borrower.Post zt tr v γ) :
    (∀ j, DebtOf j tr v (γ j)) ∧ Waits tr := by
  induction h with
  | init =>
    exact ⟨fun j pre mid n z Z h => by simp at h, fun pre mid post j n z Z m req r h => by simp at h⟩
  | @call tr v γ i n req evs s _ hi hs ih =>
    obtain ⟨hdebt, hwaits⟩ := ih
    have hown : ∀ s', DebtOf i (tr ++ [.call i n req]) v s' :=
      fun s' => (hdebt i).own (by simp [hi]) (by rintro _ _ _ ⟨⟩)
    refine settled_waits (fun j hji => ?_) (hwaits.concat rfl) hs (fun _ => hown _) ?_
    · exact (hdebt j).other (Ne.symm hji) (by simp [Event.writes]) fun _ => rfl
    · intro r _ pre mid m z Z hsplit hno
      obtain ⟨⟨_, _, hnone⟩, -⟩ := hown none pre mid m z Z hsplit hno
      cases hnone
  | @did tr v γ i n req g site d g' evs s _ hi hd hk hm hs ih =>
    obtain ⟨hdebt, hwaits⟩ := ih
    obtain ⟨now, p⟩ := g
    obtain ⟨now', p'⟩ := g'
    obtain ⟨rfl, hm⟩ := hm
    have hothers : ∀ j, j ≠ i → DebtOf j (tr ++ [.did i n site d]) d.after (γ j) := fun j hji =>
      (hdebt j).other (Ne.symm hji) (fun hw => hd ▸ hm.rises.2 hw)
        fun hn => (d.after_eq_before hn).trans hd
    refine settled_waits hothers (hwaits.concat rfl) hs ?_ ?_
    · rintro ⟨site', d', g'', -, hlive⟩
      cases hm with
      | look => exact (hdebt i).own (by simp [hi]) (by rintro _ _ _ ⟨⟩)
      | drain => exact (hdebt i).own (by simp [hi]) (by rintro _ _ _ ⟨⟩)
      | empty => exact (hdebt i).own (by simp [hi]) (by rintro _ _ _ ⟨⟩)
      | retry hw =>
        refine (hdebt i).own (by simp [hi]) ?_
        rintro m z Z ⟨⟩
        cases hw
      | borrow =>
        refine (hdebt i).own (by simp [hi]) ?_
        rintro m z Z ⟨⟩
        exact ⟨⟨req, _, rfl⟩, rfl⟩
      | answer => cases hlive
    · rintro r ⟨hnow, hpost⟩ pre mid m z Z hsplit hno
      rcases concat_eq_append_cons hsplit with ⟨-, heq, -⟩ | ⟨mid', rfl, htr⟩
      · -- A call does not return from the access that takes the debt.
        obtain ⟨-, rfl, rfl⟩ := heq
        cases hm with
        | retry hw => cases hw
        | borrow => exact hpost.elim
      · obtain ⟨⟨_, _, howes⟩, -, hiff⟩ := hdebt i pre mid' m z Z htr (noReturn_concat hno).1
        rw [hi] at howes
        cases howes
        cases hm
        subst hd
        exact answer_iff hk hnow hpost hiff

/-- **A borrower's wait.** In every run of borrowing calls, the wait of a call that borrowed is that for
the zero time `Z` its own `return_tokens` committed exactly when nothing is written between that
commit and its return. -/
theorem own_debt_iff (limit : Limit) (zt : ℚ) (calls : ι → List Request)
    (hcalls : ∀ i, ∀ req ∈ calls i, req.call.borrows = true) (sched : List (ι × Bool))
    {pre mid post : Trace ι} {n : Nat} {z Z : ℚ} {req : Request} {r : Response}
    (htrace : (Pool.run (Request.code limit) sched (.init zt calls)).trace =
      pre ++ .did i n .returnTokens (.exchange z Z) :: (mid ++ .ret i n req r :: post)) :
    r.waited = max 0 (Z - req.now) ↔ ∀ e ∈ mid, e.writes = false := by
  obtain ⟨γ, hrun, -⟩ := adequacy debtProtocol (fun req => ⟨req.now, .draining⟩)
    Borrower.Post (fun _ _ => trivial) (fun i req hreq => code_debt limit (hcalls i req hreq))
    zt sched
  refine (run_waits hrun).2 pre mid post i n z Z n req r htrace fun e hmem hi => ?_
  -- A return in between would be of an earlier call, but the debt before it is not.
  have hbefore := run_before (Request.code limit) zt calls sched
  rw [htrace, List.pairwise_append] at hbefore
  obtain ⟨-, hbefore, -⟩ := hbefore
  rw [List.pairwise_cons, List.pairwise_append] at hbefore
  obtain ⟨hfirst, -, -, hlast⟩ := hbefore
  have h1 := hfirst e (by simp [hmem]) hi.symm
  have h2 := hlast e hmem (.ret i n req r) (by simp) hi
  by_contra hr
  have h3 := h2.2 (.inl (by simpa using hr))
  simp only [Event.index] at h1 h3
  omega

end

/-- Two threads borrow one token each from an empty bucket at time 0. The first commits the zero time
1; the second makes its whole call; the first reads 2 and is told to wait two seconds. -/
theorem foreign_debt :
    let req : Request := ⟨.consumeWithBorrow ⟨1, by decide⟩, 0⟩
    let r : Response := .consumeWithBorrow (.ok (some ⟨2⟩))
    let sched := (List.replicate 4 true ++ List.replicate 5 false ++ [true]).map fun i => (i, false)
    let trace := (Pool.run (Request.code (.perSecond ⟨1, by decide⟩)) sched
      (.init 0 fun _ : Bool => [req])).trace
    .did true 0 .returnTokens (.exchange 0 1) ∈ trace ∧ .ret true 0 req r ∈ trace ∧
      r.waited ≠ max 0 (1 - req.now) := by
  decide +kernel

/-- In the same run the second thread is overtaken by nobody. -/
theorem own_debt_iff_second :
    let req : Request := ⟨.consumeWithBorrow ⟨1, by decide⟩, 0⟩
    let sched := (List.replicate 4 true ++ List.replicate 5 false ++ [true]).map fun i => (i, false)
    let trace := (Pool.run (Request.code (.perSecond ⟨1, by decide⟩)) sched
      (.init 0 fun _ : Bool => [req])).trace
    let mid : Trace Bool := [.did false 0 .timeWhenBucket (.load 2)]
    trace = trace.take 7 ++ .did false 0 .returnTokens (.exchange 1 2) ::
        (mid ++ .ret false 0 req (.consumeWithBorrow (.ok (some ⟨2⟩))) :: trace.drop 10) ∧
      ((Response.consumeWithBorrow (.ok (some ⟨2⟩))).waited = max 0 (2 - req.now) ↔
        ∀ e ∈ mid, e.writes = false) := by
  intro req sched trace mid
  have htrace : trace = trace.take 7 ++ .did false 0 .returnTokens (.exchange 1 2) ::
      (mid ++ .ret false 0 req (.consumeWithBorrow (.ok (some ⟨2⟩))) :: trace.drop 10) := by
    decide +kernel
  exact ⟨htrace, own_debt_iff (.perSecond ⟨1, by decide⟩) 0 (fun _ : Bool => [req])
    (fun _ => by decide) sched htrace⟩

end Gardal
