import CodeIndex.Proofs.Results
import CodeIndex.Session

/-!
# What actions do to files

What an action prints never decides what it does, so actions are compared by what they leave of
the file system. `Action.on` forgets the printed text; on quiet actions it turns a sequence of
actions into a sequence of results.
-/

namespace CodeIndex

namespace Action

variable {α β : Type}

/-- An outcome without what was printed: the result or the failure, each with the file system. -/
def effect : EStateM.Result Failure Session α → Except (Failure × FileSystem) (α × FileSystem)
  | .ok a s => .ok (a, s.fs)
  | .error e s => .error (e, s.fs)

/-- What an action does to a file system. -/
def on (x : Action α) (fs : FileSystem) : Except (Failure × FileSystem) (α × FileSystem) :=
  effect (x ⟨fs, []⟩)

/-- An action that does the same whatever has been printed before. -/
def Quiet (x : Action α) : Prop := ∀ fs out, effect (x ⟨fs, out⟩) = x.on fs

theorem bind_eq (x : Action α) (f : α → Action β) (s : Session) :
    (x >>= f) s = match x s with
      | .ok a s' => f a s'
      | .error e s' => .error e s' := by
  change EStateM.bind x f s = _
  unfold EStateM.bind
  cases x s <;> rfl

theorem bind_ok_iff {x : Action α} {f : α → Action β} {b : β} {σ σ' : Session} :
    (x >>= f) σ = .ok b σ' ↔ ∃ a σ₁, x σ = .ok a σ₁ ∧ f a σ₁ = .ok b σ' := by
  rw [bind_eq]
  cases x σ with
  | ok a σ₁ =>
    constructor
    · intro h
      exact ⟨a, σ₁, rfl, h⟩
    · rintro ⟨a, σ₁, hx, h⟩
      cases hx
      exact h
  | error e σ₁ => simp

theorem on_ok_iff {x : Action α} {fs fs' : FileSystem} {a : α} :
    x.on fs = .ok (a, fs') ↔ ∃ out, x ⟨fs, []⟩ = .ok a ⟨fs', out⟩ := by
  unfold on
  cases x ⟨fs, []⟩ with
  | ok b σ =>
    cases σ
    simp [effect]
  | error e σ => simp [effect]

theorem Quiet.on_ok_iff {x : Action α} (h : x.Quiet) {fs fs' : FileSystem} {a : α} (out : Text) :
    x.on fs = .ok (a, fs') ↔ ∃ out', x ⟨fs, out⟩ = .ok a ⟨fs', out'⟩ := by
  rw [← h fs out]
  cases x ⟨fs, out⟩ with
  | ok b σ =>
    cases σ
    simp [effect]
  | error e σ => simp [effect]

theorem effect_bind {x : Action α} {f : α → Action β} (hf : ∀ a, (f a).Quiet) (s : Session) :
    effect ((x >>= f) s) = effect (x s) >>= fun r => (f r.1).on r.2 := by
  rw [bind_eq]
  cases x s with
  | ok a s' => exact hf a s'.fs s'.printed
  | error e s' => rfl

theorem on_bind {x : Action α} {f : α → Action β} (hf : ∀ a, (f a).Quiet) (fs : FileSystem) :
    (x >>= f).on fs = x.on fs >>= fun r => (f r.1).on r.2 :=
  effect_bind hf _

@[simp]
theorem Quiet.bind {x : Action α} {f : α → Action β} (hx : x.Quiet) (hf : ∀ a, (f a).Quiet) :
    (x >>= f).Quiet := by
  intro fs out
  rw [on_bind hf, effect_bind hf, hx fs out]

@[simp]
theorem Quiet.pure (a : α) : Quiet (Pure.pure a) := fun _ _ => rfl

@[simp]
theorem Quiet.throw (e : Failure) : Quiet (MonadExcept.throw e : Action α) := fun _ _ => rfl

@[simp]
theorem on_pure (a : α) (fs : FileSystem) : (Pure.pure a : Action α).on fs = .ok (a, fs) := rfl

@[simp]
theorem on_throw (e : Failure) (fs : FileSystem) :
    (MonadExcept.throw e : Action α).on fs = .error (e, fs) := rfl

@[simp]
theorem Quiet.print (line : Text) : Quiet (Action.print line) := fun _ _ => rfl

@[simp]
theorem on_print (line : Text) (fs : FileSystem) : (Action.print line).on fs = .ok ((), fs) := rfl

theorem print_ok_iff {line : Text} {σ σ' : Session} {u : Unit} :
    Action.print line σ = .ok u σ' ↔ σ' = { σ with printed := σ.printed ++ line ++ ['\n'] } := by
  constructor
  · intro h
    cases h
    rfl
  · rintro rfl
    rfl

theorem ask_eq (question : FileSystem → Except Failure α) (s : Session) :
    Action.ask question s = match question s.fs with
      | .ok a => .ok a s
      | .error e => .error e s := by
  change (match question s.fs with
    | .ok a => Pure.pure a
    | .error e => MonadExcept.throw e : Action α) s = _
  cases question s.fs <;> rfl

theorem ask_ok_iff {question : FileSystem → Except Failure α} {σ σ' : Session} {a : α} :
    Action.ask question σ = .ok a σ' ↔ question σ.fs = .ok a ∧ σ' = σ := by
  rw [ask_eq]
  cases question σ.fs <;> simp [eq_comm]

@[simp]
theorem Quiet.ask (question : FileSystem → Except Failure α) : Quiet (Action.ask question) := by
  intro fs out
  simp only [on, ask_eq]
  cases question fs <;> rfl

theorem on_ask (question : FileSystem → Except Failure α) (fs : FileSystem) :
    (Action.ask question).on fs = match question fs with
      | .ok a => .ok (a, fs)
      | .error e => .error (e, fs) := by
  simp only [on, ask_eq]
  cases question fs <;> rfl

theorem change_eq (f : FileSystem → Except Failure FileSystem) (s : Session) :
    Action.change f s = match f s.fs with
      | .ok fs => .ok () { s with fs := fs }
      | .error e => .error e s := by
  unfold Action.change
  rw [bind_eq, ask_eq]
  cases f s.fs <;> rfl

theorem change_ok_iff {g : FileSystem → Except Failure FileSystem} {σ σ' : Session} {u : Unit} :
    Action.change g σ = .ok u σ' ↔ ∃ fs, g σ.fs = .ok fs ∧ σ' = { σ with fs := fs } := by
  rw [change_eq]
  cases g σ.fs <;> simp [eq_comm]

@[simp]
theorem Quiet.change (f : FileSystem → Except Failure FileSystem) : Quiet (Action.change f) := by
  intro fs out
  simp only [on, change_eq]
  cases f fs <;> rfl

theorem on_change (f : FileSystem → Except Failure FileSystem) (fs : FileSystem) :
    (Action.change f).on fs = match f fs with
      | .ok fs' => .ok ((), fs')
      | .error e => .error (e, fs) := by
  simp only [on, change_eq]
  cases f fs <;> rfl

theorem on_bind_ok_iff {x : Action α} {f : α → Action β} (hf : ∀ a, (f a).Quiet) {fs : FileSystem}
    {r : β × FileSystem} :
    (x >>= f).on fs = .ok r ↔ ∃ a fs₁, x.on fs = .ok (a, fs₁) ∧ (f a).on fs₁ = .ok r := by
  rw [on_bind hf, CodeIndex.bind_ok_iff]
  constructor
  · rintro ⟨⟨a, fs₁⟩, hx, h⟩
    exact ⟨a, fs₁, hx, h⟩
  · rintro ⟨a, fs₁, hx, h⟩
    exact ⟨(a, fs₁), hx, h⟩

theorem on_ask_ok_iff {question : FileSystem → Except Failure α} {fs fs' : FileSystem} {a : α} :
    (Action.ask question).on fs = .ok (a, fs') ↔ question fs = .ok a ∧ fs' = fs := by
  rw [on_ask]
  cases question fs <;> simp [eq_comm]

theorem on_change_ok_iff {f : FileSystem → Except Failure FileSystem} {fs fs' : FileSystem}
    {u : Unit} : (Action.change f).on fs = .ok (u, fs') ↔ f fs = .ok fs' := by
  rw [on_change]
  cases f fs <;> simp

@[simp]
theorem Quiet.writeText (p : Path) (content : Text) : Quiet (Action.writeText p content) :=
  Quiet.change _

theorem on_writeText_ok_iff {p : Path} {content : Text} {fs fs' : FileSystem} {u : Unit} :
    (Action.writeText p content).on fs = .ok (u, fs') ↔
      fs.write p (Utf8.encode content) = .ok fs' :=
  on_change_ok_iff

theorem on_print_bind {f : Unit → Action β} (hf : ∀ u, (f u).Quiet) (line : Text)
    (fs : FileSystem) : (Action.print line >>= f).on fs = (f ()).on fs := by
  rw [on_bind hf, on_print]
  rfl

theorem on_ask_bind_ok_iff {question : FileSystem → Except Failure α} {f : α → Action β}
    (hf : ∀ a, (f a).Quiet) {fs : FileSystem} {r : β × FileSystem} :
    (Action.ask question >>= f).on fs = .ok r ↔
      ∃ a, question fs = .ok a ∧ (f a).on fs = .ok r := by
  rw [on_bind_ok_iff hf]
  constructor
  · rintro ⟨a, fs₁, hask, h⟩
    obtain ⟨hq, rfl⟩ := on_ask_ok_iff.1 hask
    exact ⟨a, hq, h⟩
  · rintro ⟨a, hq, h⟩
    exact ⟨a, fs, on_ask_ok_iff.2 ⟨hq, rfl⟩, h⟩

theorem on_change_bind_ok_iff {g : FileSystem → Except Failure FileSystem} {f : Unit → Action β}
    (hf : ∀ u, (f u).Quiet) {fs : FileSystem} {r : β × FileSystem} :
    (Action.change g >>= f).on fs = .ok r ↔ ∃ fs₁, g fs = .ok fs₁ ∧ (f ()).on fs₁ = .ok r := by
  rw [on_bind_ok_iff hf]
  constructor
  · rintro ⟨u, fs₁, hchange, h⟩
    exact ⟨fs₁, on_change_ok_iff.1 hchange, h⟩
  · rintro ⟨fs₁, hg, h⟩
    exact ⟨(), fs₁, on_change_ok_iff.2 hg, h⟩

@[simp]
theorem Quiet.mapM {f : α → Action β} (hf : ∀ a, (f a).Quiet) (as : List α) :
    Quiet (as.mapM f) := by
  induction as with
  | nil => exact Quiet.pure []
  | cons a as ih =>
    rw [List.mapM_cons]
    exact (hf a).bind fun b => ih.bind fun bs => Quiet.pure (b :: bs)

/-- An action for each member gives as many results. -/
theorem length_of_mapM_on {f : α → Action β} {as : List α} {bs : List β} {fs fs' : FileSystem}
    (hok : (as.mapM f).on fs = .ok (bs, fs')) : bs.length = as.length := by
  have hmapM : ∀ (as : List α) (bs : List β) (σ σ' : Session),
      as.mapM f σ = .ok bs σ' → bs.length = as.length := by
    intro as
    induction as with
    | nil =>
      intro bs σ σ' h
      cases h
      rfl
    | cons a as ih =>
      intro bs σ σ' h
      rw [List.mapM_cons] at h
      obtain ⟨b, σ₁, -, hrest⟩ := bind_ok_iff.1 h
      obtain ⟨bs', σ₂, hbs, hpure⟩ := bind_ok_iff.1 hrest
      cases hpure
      rw [List.length_cons, List.length_cons, ih bs' σ₁ _ hbs]
  obtain ⟨out, hres⟩ := on_ok_iff.1 hok
  exact hmapM as bs _ _ hres

@[simp]
theorem Quiet.foldlM {f : β → α → Action β} (hf : ∀ b a, (f b a).Quiet) (b : β) (as : List α) :
    Quiet (as.foldlM f b) := by
  induction as generalizing b with
  | nil => exact Quiet.pure b
  | cons a as ih =>
    rw [List.foldlM_cons]
    exact (hf b a).bind ih

/-- What holds when an action that starts with a file system is over: `done` of its result and what
it leaves, or, if it fails, `failed` of the failure and what it leaves. -/
def Leaves (x : Action α) (fs : FileSystem) (done : α → FileSystem → Prop)
    (failed : Failure → FileSystem → Prop) : Prop :=
  ∀ out, match x ⟨fs, out⟩ with
    | .ok a σ => done a σ.fs
    | .error e σ => failed e σ.fs

namespace Leaves

variable {x : Action α} {f : α → Action β} {g : Unit → Action β} {fs : FileSystem}
  {done done' : α → FileSystem → Prop} {after : β → FileSystem → Prop}
  {failed failed' : Failure → FileSystem → Prop}

/-- An action and what follows it, with what holds between them. -/
theorem bind (between : α → FileSystem → Prop) (hx : x.Leaves fs between failed)
    (hf : ∀ a fs₁, between a fs₁ → (f a).Leaves fs₁ after failed) :
    Leaves (x >>= f) fs after failed := by
  intro out
  have hfirst := hx out
  rw [bind_eq]
  cases hres : x ⟨fs, out⟩ with
  | ok a σ =>
    rw [hres] at hfirst
    exact hf a σ.fs hfirst σ.printed
  | error e σ =>
    rw [hres] at hfirst
    exact hfirst

theorem imp (hx : x.Leaves fs done failed) (hdone : ∀ a fs₁, done a fs₁ → done' a fs₁)
    (hfailed : ∀ e fs₁, failed e fs₁ → failed' e fs₁) : x.Leaves fs done' failed' := by
  intro out
  have hfirst := hx out
  cases hres : x ⟨fs, out⟩ with
  | ok a σ =>
    rw [hres] at hfirst
    exact hdone a σ.fs hfirst
  | error e σ =>
    rw [hres] at hfirst
    exact hfailed e σ.fs hfirst

theorem of_on {a : α} {fs' : FileSystem} (hx : x.Leaves fs done failed)
    (hok : x.on fs = .ok (a, fs')) : done a fs' := by
  obtain ⟨out, hres⟩ := on_ok_iff.1 hok
  have hdone := hx []
  rw [hres] at hdone
  exact hdone

theorem pure {a : α} (h : done a fs) : Leaves (Pure.pure a) fs done failed := fun _ => h

theorem throw {e : Failure} (h : failed e fs) :
    Leaves (MonadExcept.throw e : Action α) fs done failed := fun _ => h

theorem print_bind {line : Text} (h : (g ()).Leaves fs after failed) :
    Leaves (Action.print line >>= g) fs after failed :=
  bind (fun _ fs₁ => fs₁ = fs) (fun _ => rfl) fun _ _ heq => heq ▸ h

theorem ask {question : FileSystem → Except Failure α}
    (hok : ∀ a, question fs = .ok a → done a fs)
    (herror : ∀ e, question fs = .error e → failed e fs) :
    Leaves (Action.ask question) fs done failed := by
  intro out
  rw [ask_eq]
  cases hq : question fs with
  | ok a => exact hok a hq
  | error e => exact herror e hq

theorem ask_bind {question : FileSystem → Except Failure α}
    (hok : ∀ a, question fs = .ok a → (f a).Leaves fs after failed)
    (herror : ∀ e, question fs = .error e → failed e fs) :
    Leaves (Action.ask question >>= f) fs after failed := by
  refine bind (fun a fs₁ => question fs = .ok a ∧ fs₁ = fs) (ask (fun a hq => ⟨hq, rfl⟩) herror) ?_
  rintro a fs₁ ⟨hq, rfl⟩
  exact hok a hq

theorem change {change : FileSystem → Except Failure FileSystem} {done : Unit → FileSystem → Prop}
    (hok : ∀ fs₁, change fs = .ok fs₁ → done () fs₁)
    (herror : ∀ e, change fs = .error e → failed e fs) :
    Leaves (Action.change change) fs done failed := by
  intro out
  rw [change_eq]
  cases hc : change fs with
  | ok fs₁ => exact hok fs₁ hc
  | error e => exact herror e hc

theorem change_bind {change : FileSystem → Except Failure FileSystem}
    (hok : ∀ fs₁, change fs = .ok fs₁ → (g ()).Leaves fs₁ after failed)
    (herror : ∀ e, change fs = .error e → failed e fs) :
    Leaves (Action.change change >>= g) fs after failed :=
  bind (fun _ fs₁ => change fs = .ok fs₁) (Leaves.change (fun _ hc => hc) herror)
    fun _ fs₁ hc => hok fs₁ hc

/-- What every step keeps is kept by all of them. -/
theorem foldlM {step : β → α → Action β} {inv : β → FileSystem → Prop} {as : List α} {b : β}
    (hstep : ∀ b fs₁, ∀ a ∈ as, inv b fs₁ → (step b a).Leaves fs₁ inv failed) (h : inv b fs) :
    Leaves (as.foldlM step b) fs inv failed := by
  induction as generalizing b fs with
  | nil => exact pure h
  | cons a as ih =>
    rw [List.foldlM_cons]
    refine bind inv (hstep b fs a List.mem_cons_self h) fun b₁ fs₁ h₁ => ?_
    exact ih (fun b fs₂ c hc => hstep b fs₂ c (List.mem_cons_of_mem _ hc)) h₁

theorem mapM {step : α → Action β} {inv : FileSystem → Prop} {as : List α}
    (hstep : ∀ fs₁, ∀ a ∈ as, inv fs₁ → (step a).Leaves fs₁ (fun _ => inv) failed) (h : inv fs) :
    Leaves (as.mapM step) fs (fun _ => inv) failed := by
  induction as generalizing fs with
  | nil => exact pure h
  | cons a as ih =>
    rw [List.mapM_cons]
    refine bind (fun _ => inv) (hstep fs a List.mem_cons_self h) fun b fs₁ h₁ => ?_
    refine bind (fun _ => inv) (ih (fun fs₂ c hc => ?_) h₁) fun bs fs₂ h₂ => ?_
    · exact hstep fs₂ c (List.mem_cons_of_mem _ hc)
    · exact pure h₂

end Leaves

end Action

end CodeIndex
