import Torpor.Lib.Machine

/-!
# Programs of Atomic Operations

A request handler that works on a shared store through operations, each of them atomic: a
`Program` has returned, has raised an exception, or performs an operation and goes on with
what it answers. The same program is run in two ways: alone, from its beginning to its end,
and as one thread of a pool, in which the environment says whose operation comes next.

A monitor gives each thread a mark that its own operations move. A program `Obeys` a rule on
marks and operations when no path of it breaks the rule, whatever the operations answer; the
threads of every run then obey it, whatever the others do in between.

## Main results

* `obeys_bind`, `obeys_tryCatch`, `Always.bind`: the rules for a composed program.
* `alone_bind`: a program run alone is its first part run alone, then the rest.
* `System.step_cases`: what one step of the pool can be.
* `System.allObey_step`: a step leaves every thread obeying the rule that its handler obeys.
-/

namespace Atomic

variable {ε : Type} {Op : Type → Type} {α β γ : Type}

/-- A program over the operations `Op`, with exceptions from `ε`. -/
inductive Program (ε : Type) (Op : Type → Type) (α : Type) : Type 1
  | done (a : α)
  | raise (e : ε)
  | use {β : Type} (op : Op β) (k : β → Program ε Op α)

namespace Program

/-- Perform one operation. -/
def call (op : Op α) : Program ε Op α := use op done

protected def bind : Program ε Op α → (α → Program ε Op β) → Program ε Op β
  | done a, f => f a
  | raise e, _ => raise e
  | use op k, f => use op fun b => (k b).bind f

/-- Handle the exception that a program ends with. -/
protected def tryCatch : Program ε Op α → (ε → Program ε Op α) → Program ε Op α
  | done a, _ => done a
  | raise e, f => f e
  | use op k, f => use op fun b => (k b).tryCatch f

instance : Monad (Program ε Op) where
  pure := done
  bind := Program.bind

instance : MonadExceptOf ε (Program ε Op) where
  throw := raise
  tryCatch := Program.tryCatch

/-- What a program that has ended answers. -/
def answer : Program ε Op α → Option (Except ε α)
  | done a => some (.ok a)
  | raise e => some (.error e)
  | use _ _ => none

@[simp] theorem pure_eq (a : α) : (pure a : Program ε Op α) = done a := rfl

@[simp] theorem throw_eq (e : ε) : (throw e : Program ε Op α) = raise e := rfl

@[simp] theorem bind_eq (p : Program ε Op α) (f : α → Program ε Op β) :
    p.bind f = p >>= f := rfl

@[simp] theorem done_bind (a : α) (f : α → Program ε Op β) : (done a >>= f) = f a := rfl

@[simp] theorem raise_bind (e : ε) (f : α → Program ε Op β) :
    (raise e >>= f) = raise e := rfl

@[simp] theorem use_bind (op : Op γ) (k : γ → Program ε Op α) (f : α → Program ε Op β) :
    (use op k >>= f) = use op fun b => k b >>= f := rfl

@[simp] theorem call_bind (op : Op α) (f : α → Program ε Op β) :
    (call op >>= f) = use op f := rfl

@[simp] theorem map_eq (f : α → β) (p : Program ε Op α) :
    (f <$> p) = p >>= fun a => done (f a) := rfl

@[simp] theorem answer_done (a : α) : (done a : Program ε Op α).answer = some (.ok a) := rfl

@[simp] theorem answer_raise (e : ε) : (raise e : Program ε Op α).answer = some (.error e) :=
  rfl

@[simp] theorem answer_use (op : Op γ) (k : γ → Program ε Op α) : (use op k).answer = none :=
  rfl

end Program

open Program

/-! ### Programs under a monitor -/

section Obeys

variable {Mark : Type} (ok : Mark → (β : Type) → Op β → Prop)
  (next : Mark → (β : Type) → Op β → β → Mark)

/-- On no path from the mark `t` does the program perform an operation that `ok` forbids, and
where it ends the mark and its answer meet `Q`. -/
def Obeys : Mark → Program ε Op α → (Mark → Except ε α → Prop) → Prop
  | t, .done a, Q => Q t (.ok a)
  | t, .raise e, Q => Q t (.error e)
  | t, .use op k, Q => ok t _ op ∧ ∀ b, Obeys (next t _ op b) (k b) Q

/-- The condition on the end of a first part: the rest obeys. -/
def Continues (f : α → Program ε Op β) (Q : Mark → Except ε β → Prop) :
    Mark → Except ε α → Prop
  | t, .ok a => Obeys ok next t (f a) Q
  | t, .error e => Q t (.error e)

/-- The condition on the end of a guarded part: what handles its exception obeys. -/
def Recovers (f : ε → Program ε Op α) (Q : Mark → Except ε α → Prop) :
    Mark → Except ε α → Prop
  | t, .ok a => Q t (.ok a)
  | t, .error e => Obeys ok next t (f e) Q

/-- From every mark the program obeys. -/
def Always (p : Program ε Op α) : Prop := ∀ t, Obeys ok next t p fun _ _ => True

variable {ok next}

@[simp] theorem obeys_done {t : Mark} {a : α} {Q : Mark → Except ε α → Prop} :
    Obeys ok next t (done a) Q ↔ Q t (.ok a) := Iff.rfl

@[simp] theorem obeys_raise {t : Mark} {e : ε} {Q : Mark → Except ε α → Prop} :
    Obeys ok next t (raise e) Q ↔ Q t (.error e) := Iff.rfl

@[simp] theorem obeys_use {t : Mark} {op : Op γ} {k : γ → Program ε Op α}
    {Q : Mark → Except ε α → Prop} :
    Obeys ok next t (use op k) Q ↔
      ok t _ op ∧ ∀ b, Obeys ok next (next t _ op b) (k b) Q := Iff.rfl

theorem obeys_bind {t : Mark} {p : Program ε Op α} {f : α → Program ε Op β}
    {Q : Mark → Except ε β → Prop} :
    Obeys ok next t (p >>= f) Q ↔ Obeys ok next t p (Continues ok next f Q) := by
  induction p generalizing t with
  | done a => exact Iff.rfl
  | raise e => exact Iff.rfl
  | use op k ih => simp only [use_bind, obeys_use, ih]

theorem obeys_tryCatch {t : Mark} {p : Program ε Op α} {f : ε → Program ε Op α}
    {Q : Mark → Except ε α → Prop} :
    Obeys ok next t (tryCatch p f) Q ↔ Obeys ok next t p (Recovers ok next f Q) := by
  induction p generalizing t with
  | done a => exact Iff.rfl
  | raise e => exact Iff.rfl
  | use op k ih => exact and_congr Iff.rfl (forall_congr' fun b => ih b)

theorem Obeys.imp {t : Mark} {p : Program ε Op α} {Q R : Mark → Except ε α → Prop}
    (h : Obeys ok next t p Q) (hQR : ∀ t r, Q t r → R t r) : Obeys ok next t p R := by
  induction p generalizing t with
  | done a => exact hQR _ _ h
  | raise e => exact hQR _ _ h
  | use op k ih => exact ⟨h.1, fun b => ih b (h.2 b)⟩

theorem always_done (a : α) : Always ok next (done a : Program ε Op α) := fun _ => trivial

theorem always_raise (e : ε) : Always ok next (raise e : Program ε Op α) := fun _ => trivial

theorem Always.use {op : Op γ} {k : γ → Program ε Op α} (hok : ∀ t, ok t γ op)
    (hk : ∀ b, Always ok next (k b)) : Always ok next (use op k) :=
  fun t => ⟨hok t, fun b => hk b _⟩

/-- An operation first, then the rest. -/
theorem Always.call_bind {op : Op γ} {f : γ → Program ε Op α} (hok : ∀ t, ok t γ op)
    (hf : ∀ b, Always ok next (f b)) : Always ok next (call op >>= f) :=
  Always.use hok hf

theorem Always.bind {p : Program ε Op α} {f : α → Program ε Op β} (hp : Always ok next p)
    (hf : ∀ a, Always ok next (f a)) : Always ok next (p >>= f) := by
  refine fun t => obeys_bind.mpr ((hp t).imp fun t' r _ => ?_)
  cases r with
  | ok a => exact hf a t'
  | error e => trivial

theorem Always.tryCatch {p : Program ε Op α} {f : ε → Program ε Op α}
    (hp : Always ok next p) (hf : ∀ e, Always ok next (f e)) :
    Always ok next (MonadExcept.tryCatch p f) := by
  refine fun t => obeys_tryCatch.mpr ((hp t).imp fun t' r _ => ?_)
  cases r with
  | ok a => trivial
  | error e => exact hf e t'

/-- A mark that allows every operation and stays. -/
theorem obeys_of_stays {t : Mark} (hok : ∀ β (op : Op β), ok t β op)
    (hnext : ∀ β (op : Op β) b, next t β op b = t) {p : Program ε Op α}
    {Q : Mark → Except ε α → Prop} (hQ : ∀ r, Q t r) : Obeys ok next t p Q := by
  induction p with
  | done a => exact hQ _
  | raise e => exact hQ _
  | use op k ih => exact ⟨hok _ op, fun b => (hnext _ op b).symm ▸ ih b⟩

/-- Where an obeying program has ended, its mark and its answer meet the condition. -/
theorem Obeys.of_answer {t : Mark} {p : Program ε Op α} {Q : Mark → Except ε α → Prop}
    (h : Obeys ok next t p Q) {r : Except ε α} (hr : p.answer = some r) : Q t r := by
  cases p with
  | done a => exact Option.some.inj hr ▸ h
  | raise e => exact Option.some.inj hr ▸ h
  | use op k => cases hr

end Obeys

/-- On every path of the program, each operation is one of `allowed`. -/
def Uses (allowed : (β : Type) → Op β → Prop) (p : Program ε Op α) : Prop :=
  Always (fun _ : Unit => allowed) (fun _ _ _ _ => ()) p

theorem uses_of_forall {allowed : (β : Type) → Op β → Prop}
    (h : ∀ β (op : Op β), allowed β op) (p : Program ε Op α) : Uses allowed p :=
  fun _ => obeys_of_stays h (fun _ _ _ => rfl) fun _ => trivial

/-- A program of operations that are allowed at a mark and do not move it. -/
theorem Uses.obeys {Mark : Type} {ok : Mark → (β : Type) → Op β → Prop}
    {next : Mark → (β : Type) → Op β → β → Mark} {allowed : (β : Type) → Op β → Prop}
    {t : Mark} {p : Program ε Op α} (hp : Uses allowed p)
    (hok : ∀ β (op : Op β), allowed β op → ok t β op)
    (hnext : ∀ β (op : Op β) b, allowed β op → next t β op b = t)
    {Q : Mark → Except ε α → Prop} (hQ : ∀ r, Q t r) : Obeys ok next t p Q := by
  induction p with
  | done a => exact hQ _
  | raise e => exact hQ _
  | use op k ih =>
      have hop := (hp ()).1
      refine ⟨hok _ op hop, fun b => ?_⟩
      rw [hnext _ op b hop]
      exact ih b fun _ => (hp ()).2 b

/-! ### A program run alone -/

section Alone

variable {Env σ : Type} (exec : (β : Type) → Op β → Env → σ → β × σ)

/-- Run a program to its end with nothing in between: its answer, the store it leaves and the
number of the environment's readings up to then. -/
def alone (env : ℕ → Env) : ℕ → σ → Program ε Op α → Except ε α × σ × ℕ
  | n, s, .done a => (.ok a, s, n)
  | n, s, .raise e => (.error e, s, n)
  | n, s, .use op k =>
      alone env (n + 1) (exec _ op (env n) s).2 (k (exec _ op (env n) s).1)

/-- Go on after a first part that has ended. -/
def andThen (env : ℕ → Env) (f : α → Program ε Op β) :
    Except ε α × σ × ℕ → Except ε β × σ × ℕ
  | (.ok a, s, n) => alone exec env n s (f a)
  | (.error e, s, n) => (.error e, s, n)

variable {exec}

@[simp] theorem alone_done {env : ℕ → Env} {n : ℕ} {s : σ} {a : α} :
    alone exec env n s (done a : Program ε Op α) = (.ok a, s, n) := rfl

@[simp] theorem alone_raise {env : ℕ → Env} {n : ℕ} {s : σ} {e : ε} :
    alone exec env n s (raise e : Program ε Op α) = (.error e, s, n) := rfl

@[simp] theorem alone_use {env : ℕ → Env} {n : ℕ} {s : σ} {op : Op γ}
    {k : γ → Program ε Op α} :
    alone exec env n s (use op k) =
      alone exec env (n + 1) (exec _ op (env n) s).2 (k (exec _ op (env n) s).1) := rfl

theorem alone_bind {env : ℕ → Env} {n : ℕ} {s : σ} {p : Program ε Op α}
    {f : α → Program ε Op β} :
    alone exec env n s (p >>= f) = andThen exec env f (alone exec env n s p) := by
  induction p generalizing n s with
  | done a => rfl
  | raise e => rfl
  | use op k ih => exact ih _

/-- What every allowed operation preserves, a program of such operations preserves. -/
theorem alone_invariant {allowed : (β : Type) → Op β → Prop} {Inv : σ → Prop}
    (hexec : ∀ β (op : Op β) e s, allowed β op → Inv s → Inv (exec β op e s).2)
    {env : ℕ → Env} {n : ℕ} {s : σ} {p : Program ε Op α} (hp : Uses allowed p)
    (hs : Inv s) : Inv (alone exec env n s p).2.1 := by
  induction p generalizing n s with
  | done a => exact hs
  | raise e => exact hs
  | use op k ih => exact ih _ (fun _ => (hp ()).2 _) (hexec _ op _ s (hp ()).1 hs)

end Alone

/-! ### Interleaved programs -/

/-- Handlers of requests over one store, with the monitor's mark for each request. -/
structure System (ε : Type) (Op : Type → Type) (Env σ Req α Mark : Type) where
  exec : (β : Type) → Op β → Env → σ → β × σ
  handler : Req → Program ε Op α
  start : Req → Mark
  next : Mark → (β : Type) → Op β → β → Mark

/-- A request being handled. -/
structure Thread (ε : Type) (Op : Type → Type) (Req α Mark : Type) where
  request : Req
  mark : Mark
  program : Program ε Op α

/-- The store and the requests that have arrived, in that order. -/
structure Pool (ε : Type) (Op : Type → Type) (σ Req α Mark : Type) where
  store : σ
  threads : List (Thread ε Op Req α Mark)

/-- What happens next: a request arrives, or a thread performs its next operation. -/
inductive Input (Env Req : Type)
  | arrive (r : Req)
  | turn (i : ℕ) (e : Env)

namespace System

variable {Env σ Req Mark : Type} (S : System ε Op Env σ Req α Mark)

/-- One step of the pool; a thread that has ended takes no turn. -/
def step (s : Pool ε Op σ Req α Mark) : Input Env Req → Option (Pool ε Op σ Req α Mark)
  | .arrive r => some { s with threads := s.threads ++ [⟨r, S.start r, S.handler r⟩] }
  | .turn i e =>
      match s.threads[i]? with
      | some ⟨r, t, .use op k⟩ =>
          let (b, store) := S.exec _ op e s.store
          some ⟨store, s.threads.set i ⟨r, S.next t _ op b, k b⟩⟩
      | _ => none

/-- The next operation of a thread meets `C`. -/
def Performs (C : Thread ε Op Req α Mark → (β : Type) → Op β → Env → Prop)
    (t : Thread ε Op Req α Mark) (e : Env) : Prop :=
  match t.program with
  | .use op _ => C t _ op e
  | _ => True

/-- The operation of a turn meets `C`, a condition on the pool before it, the place of the
thread, the thread, the operation and the environment's reading. -/
def Permits (C : Pool ε Op σ Req α Mark → ℕ → Thread ε Op Req α Mark → (β : Type) → Op β →
    Env → Prop) (s : Pool ε Op σ Req α Mark) : Input Env Req → Prop
  | .arrive _ => True
  | .turn i e => ∀ t ∈ s.threads[i]?, Performs (C s i) t e

instance {C : Thread ε Op Req α Mark → (β : Type) → Op β → Env → Prop}
    [∀ t β op e, Decidable (C t β op e)] (t : Thread ε Op Req α Mark) (e : Env) :
    Decidable (Performs C t e) :=
  match t with
  | ⟨r, m, .use op k⟩ => inferInstanceAs (Decidable (C ⟨r, m, .use op k⟩ _ op e))
  | ⟨_, _, .done _⟩ => .isTrue trivial
  | ⟨_, _, .raise _⟩ => .isTrue trivial

instance {C : Pool ε Op σ Req α Mark → ℕ → Thread ε Op Req α Mark → (β : Type) → Op β →
    Env → Prop} [∀ s i t β op e, Decidable (C s i t β op e)] (s : Pool ε Op σ Req α Mark)
    (input : Input Env Req) : Decidable (Permits C s input) :=
  match input with
  | .arrive _ => .isTrue trivial
  | .turn i e => inferInstanceAs (Decidable (∀ t ∈ s.threads[i]?, Performs (C s i) t e))

variable {S}

/-- A step is an arrival or a turn of a thread, which changes the store as its operation does
and no other thread. -/
theorem step_cases {s s' : Pool ε Op σ Req α Mark} {input : Input Env Req}
    (h : S.step s input = some s') :
    (∃ r, input = .arrive r ∧
      s' = { s with threads := s.threads ++ [⟨r, S.start r, S.handler r⟩] }) ∨
    ∃ i e r t γ, ∃ (op : Op γ) (k : γ → Program ε Op α), input = .turn i e ∧
      s.threads[i]? = some ⟨r, t, .use op k⟩ ∧
      s' = ⟨(S.exec γ op e s.store).2,
        s.threads.set i ⟨r, S.next t γ op (S.exec γ op e s.store).1,
          k (S.exec γ op e s.store).1⟩⟩ := by
  cases input with
  | arrive r => exact .inl ⟨r, rfl, (Option.some.inj h).symm⟩
  | turn i e =>
      simp only [step] at h
      split at h
      · rename_i r t γ op k hi
        exact .inr ⟨i, e, r, t, γ, op, k, rfl, hi, (Option.some.inj h).symm⟩
      · cases h

theorem permits_turn {C : Pool ε Op σ Req α Mark → ℕ → Thread ε Op Req α Mark →
    (β : Type) → Op β → Env → Prop} {s : Pool ε Op σ Req α Mark} {i : ℕ} {e : Env} {r : Req}
    {t : Mark} {op : Op γ} {k : γ → Program ε Op α}
    (hi : s.threads[i]? = some ⟨r, t, .use op k⟩) :
    Permits C s (.turn i e) ↔ C s i ⟨r, t, .use op k⟩ γ op e := by
  simp [Permits, hi, Performs]

/-- Every thread obeys the rule from its mark. -/
def AllObey (S : System ε Op Env σ Req α Mark) (ok : Mark → (β : Type) → Op β → Prop)
    (Q : Req → Mark → Except ε α → Prop) (s : Pool ε Op σ Req α Mark) : Prop :=
  ∀ t ∈ s.threads, Obeys ok S.next t.mark t.program (Q t.request)

/-- A step leaves every thread obeying, when the handlers do. -/
theorem allObey_step {ok : Mark → (β : Type) → Op β → Prop}
    {Q : Req → Mark → Except ε α → Prop}
    (hhandler : ∀ r, Obeys ok S.next (S.start r) (S.handler r) (Q r))
    (s : Pool ε Op σ Req α Mark) (input : Input Env Req) (s' : Pool ε Op σ Req α Mark)
    (hs : S.AllObey ok Q s) (h : S.step s input = some s') : S.AllObey ok Q s' := by
  obtain ⟨r, rfl, rfl⟩ | ⟨i, e, r, t, γ, op, k, rfl, hi, rfl⟩ := step_cases h
  · intro t ht
    rcases List.mem_append.mp ht with ht | ht
    · exact hs t ht
    · obtain rfl := List.mem_singleton.mp ht
      exact hhandler r
  · intro u hu
    rcases List.mem_or_eq_of_mem_set hu with hu | rfl
    · exact hs u hu
    · exact (hs _ (List.mem_of_getElem? hi)).2 _

end System

end Atomic
