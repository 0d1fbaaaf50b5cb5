import Passdoq.Lib.Program
import Passdoq.Vault.Cases

/-!
# The interface of a vault

What a client of the `Vault` class can do: ask for its state, and call its operations. A client does other things as well
(it reads a terminal, it talks to a network); they are an interface `Ω` of their own.

* `Op.Result`, `perform` : one operation, with the type that it returns;
* `Backend` : what answers the interface; `vaultBackend` : the vault object with its files;
* `Use`, `Backend.handler` : a backend beside the rest of the world, as the handler of a client program;
* `Backend.Refines` : one backend does what the other does; `Backend.Refines.run` : so for every client; `simulates_beside` :
  the same for what is beside a backend;
* `Backend.Total` : a backend answers all calls of a kind;
* `Throwing`, `Calls` : clients that may throw, and the kind of the calls that they make;
* `Performs` : a client does with the vault object what a computation on it does; one rule for each way to build the two.
-/

namespace Passdoq
open Msgpack Crypto

/-- What a call of the operation returns. -/
def Op.Result : Op → Type
  | .lock => Unit
  | .addEntry _ => Bytes
  | .getEntry _ => Entry
  | .listEntries | .search _ | .searchByTag _ => List Entry
  | _ => Bool

section Operations

variable (S : Sodium) (F : Format)

/-- One call of `op`. -/
def perform (e : Env) : (op : Op) → Act op.Result
  | .create path passphrase => Vault.create S F e path passphrase
  | .open path => Vault.«open» S F e path
  | .unlock passphrase => Vault.unlock S F e passphrase
  | .lock => Vault.lock
  | .load => Vault.load S F e
  | .save => Vault.save S F e
  | .rekey newDataKey => Vault.rekey S F e newDataKey
  | .addEntry entry => Vault.addEntry e entry
  | .updateEntry id entry => Vault.updateEntry e id entry
  | .deleteEntry id => Vault.deleteEntry id
  | .getEntry id => Vault.getEntry id
  | .listEntries => Vault.listEntries
  | .search query => Vault.search query
  | .searchByTag tag => Vault.searchByTag tag

end Operations

/-- What the caller of an operation gets: its result or its exception; nothing where the process is stopped. -/
def returned {α : Type} : Except Fault α × Proc → Option (Except Exn α × Proc)
  | (.ok a, p) => some (.ok a, p)
  | (.error (.exn x), p) => some (.error x, p)
  | (.error .trap, _) => none

/-! ## Backends -/

/-- What answers the interface of a vault; `restart` gives what the next process finds. -/
structure Backend (σ : Type) where
  state : σ → VaultState
  call : Env → σ → (op : Op) → Option (Except Exn op.Result × σ)
  restart : σ → σ

/-- The vault object and the files. -/
def vaultBackend (S : Sodium) (F : Format) : Backend Proc :=
  ⟨fun p => p.vault.state, fun e p op => returned (perform S F e op p), fun p => ⟨.fresh, p.fs⟩⟩

/-- What a client does: it uses the vault, or something else of its world. -/
inductive Use (Ω : Type)
  | state
  | call (op : Op)
  | other (o : Ω)

def Use.Answer {Ω : Type} (A : Ω → Type) : Use Ω → Type
  | .state => VaultState
  | .call op => Except Exn op.Result
  | .other o => A o

/-- Where a client runs: the vault, the number of calls made on it, and the rest. -/
structure Site (σ ω : Type) where
  vault : σ
  calls : Nat
  rest : ω

/-- A client's uses, the `n`-th call of the vault in the world `envs n`. -/
def Backend.handler {σ ω Ω : Type} {A : Ω → Type} (B : Backend σ) (envs : Nat → Env) (g : Handler Ω A ω) :
    Handler (Use Ω) (Use.Answer A) (Site σ ω)
  | s, .state => some (B.state s.vault, s)
  | s, .call op => (B.call (envs s.calls) s.vault op).map fun r => (r.1, ⟨r.2, s.calls + 1, s.rest⟩)
  | s, .other o => (g s.rest o).map fun r => (r.1, { s with rest := r.2 })

/-- The calls of the vault are of a kind. -/
def Use.Calls {Ω : Type} (C : Op → Prop) : Use Ω → Prop
  | .call op => C op
  | _ => True

namespace Backend

variable {σ τ ω υ Ω α : Type} {A : Ω → Type} {B : Backend σ} {C : Backend τ} {R : σ → τ → Prop}

/-- On related states the backends say the same of the state, and what `C` answers `B` answers. -/
structure Refines (R : σ → τ → Prop) (B : Backend σ) (C : Backend τ) : Prop where
  state : ∀ {s t}, R s t → B.state s = C.state t
  call : ∀ {s t}, R s t → ∀ e op a t', C.call e t op = some (a, t') → ∃ s', B.call e s op = some (a, s') ∧ R s' t'
  restart : ∀ {s t}, R s t → R (B.restart s) (C.restart t)

/-- The sites differ in the vault only. -/
structure Alike (R : σ → τ → Prop) (s : Site σ ω) (t : Site τ ω) : Prop where
  vault : R s.vault t.vault
  calls : s.calls = t.calls
  rest : s.rest = t.rest

theorem Refines.simulates (h : Refines R B C) (envs : Nat → Env) (g : Handler Ω A ω) :
    Handler.Simulates (Alike R) (B.handler envs g) (C.handler envs g) := by
  intro s t o a t' hR ho
  obtain ⟨hvault, hcalls, hrest⟩ := hR
  cases o with
  | state =>
    obtain ⟨rfl, rfl⟩ := Prod.mk.inj (Option.some.inj ho)
    exact ⟨s, congrArg (fun x => some (x, s)) (h.state hvault), hvault, hcalls, hrest⟩
  | call op =>
    obtain ⟨⟨x, u⟩, hx, hr⟩ := Option.map_eq_some_iff.mp ho
    obtain ⟨rfl, rfl⟩ := Prod.mk.inj hr
    obtain ⟨v, hv, hRv⟩ := h.call hvault (envs t.calls) op x u hx
    refine ⟨⟨v, s.calls + 1, s.rest⟩, ?_, hRv, congrArg (· + 1) hcalls, hrest⟩
    change (B.call (envs s.calls) s.vault op).map _ = _
    rw [hcalls, hv]
    rfl
  | other o =>
    obtain ⟨⟨x, u⟩, hx, hr⟩ := Option.map_eq_some_iff.mp ho
    obtain ⟨rfl, rfl⟩ := Prod.mk.inj hr
    refine ⟨{ s with rest := u }, ?_, hvault, hcalls, rfl⟩
    change (g s.rest o).map _ = _
    rw [hrest, hx]
    rfl

/-- No client can tell the backends apart. -/
theorem Refines.run (h : Refines R B C) (envs : Nat → Env) (g : Handler Ω A ω) (client : Program (Use Ω) (Use.Answer A) α)
    {s : Site σ ω} {t t' : Site τ ω} {a : α} (hR : Alike R s t) (hrun : client.run (C.handler envs g) t = some (a, t')) :
    ∃ s', client.run (B.handler envs g) s = some (a, s') ∧ Alike R s' t' :=
  (h.simulates envs g).run client hR hrun

/-- The sites differ in the rest of the world only. -/
structure Beside (P : ω → υ → Prop) (s : Site σ ω) (t : Site σ υ) : Prop where
  vault : s.vault = t.vault
  calls : s.calls = t.calls
  rest : P s.rest t.rest

/-- A rest of the world that does what another does, does so beside a backend. -/
theorem simulates_beside {P : ω → υ → Prop} {g : Handler Ω A ω} {g' : Handler Ω A υ} (hg : Handler.Simulates P g g')
    (B : Backend σ) (envs : Nat → Env) : Handler.Simulates (Beside P) (B.handler envs g) (B.handler envs g') := by
  intro s t o a t' hR ho
  obtain ⟨hvault, hcalls, hrest⟩ := hR
  cases o with
  | state =>
    obtain ⟨rfl, rfl⟩ := Prod.mk.inj (Option.some.inj ho)
    exact ⟨s, congrArg (fun v => some (B.state v, s)) hvault, hvault, hcalls, hrest⟩
  | call op =>
    obtain ⟨⟨x, u⟩, hx, hr⟩ := Option.map_eq_some_iff.mp ho
    obtain ⟨rfl, rfl⟩ := Prod.mk.inj hr
    refine ⟨⟨u, s.calls + 1, s.rest⟩, ?_, rfl, congrArg (· + 1) hcalls, hrest⟩
    change (B.call (envs s.calls) s.vault op).map _ = _
    rw [hcalls, hvault, hx]
    rfl
  | other o =>
    obtain ⟨⟨x, u⟩, hx, hr⟩ := Option.map_eq_some_iff.mp ho
    obtain ⟨rfl, rfl⟩ := Prod.mk.inj hr
    obtain ⟨w, hw, hP⟩ := hg s.rest t.rest o x u hrest hx
    refine ⟨{ s with rest := w }, ?_, hvault, hcalls, hP⟩
    change (g s.rest o).map _ = _
    rw [hw]
    rfl

/-- Under the invariant every call of the kind is answered, and the invariant stays. -/
def Total (I : σ → Prop) (C : Op → Prop) (B : Backend σ) : Prop :=
  ∀ e s op, I s → C op → ∃ a s', B.call e s op = some (a, s') ∧ I s'

theorem Total.handler {I : σ → Prop} {C : Op → Prop} (h : B.Total I C) (envs : Nat → Env) {g : Handler Ω A ω}
    (hg : ∀ w o, (g w o).isSome) : (B.handler envs g).Total (fun s => I s.vault) (Use.Calls C) := by
  intro s o hI hC
  cases o with
  | state => exact ⟨B.state s.vault, s, rfl, hI⟩
  | call op =>
    obtain ⟨a, v, hv, hIv⟩ := h (envs s.calls) s.vault op hI hC
    refine ⟨a, ⟨v, s.calls + 1, s.rest⟩, ?_, hIv⟩
    change (B.call (envs s.calls) s.vault op).map _ = _
    rw [hv]
    rfl
  | other o =>
    obtain ⟨⟨a, w⟩, hw⟩ := Option.isSome_iff_exists.mp (hg s.rest o)
    refine ⟨a, { s with rest := w }, ?_, hI⟩
    change (g s.rest o).map _ = _
    rw [hw]
    rfl

end Backend

/-! ## Clients that may throw -/

/-- A client, or a part of one, that returns or throws. -/
abbrev Throwing (Ω : Type) (A : Ω → Type) := ExceptT Exn (Program (Use Ω) (Use.Answer A))

section Throwing

variable {Ω α β : Type} {A : Ω → Type}

def Throwing.call (op : Op) : Throwing Ω A op.Result := ExceptT.mk (Program.perform (Use.call op : Use Ω))

def Throwing.state : Throwing Ω A VaultState := ExceptT.lift (Program.perform (Use.state : Use Ω))

variable {C : Op → Prop}

/-- The calls of the vault in `x` are of the kind `C`. -/
def Calls (C : Op → Prop) (x : Throwing Ω A α) : Prop := x.run.Only (Use.Calls C)

theorem calls_pure (a : α) : Calls C (pure a : Throwing Ω A α) := trivial

theorem Calls.bind {x : Throwing Ω A α} {f : α → Throwing Ω A β} (hx : Calls C x) (hf : ∀ a, Calls C (f a)) :
    Calls C (x >>= f) := by
  refine Program.Only.bind hx fun r => ?_
  cases r with
  | ok a => exact hf a
  | error x => trivial

theorem Calls.tryCatch {x : Throwing Ω A α} {f : Exn → Throwing Ω A α} (hx : Calls C x) (hf : ∀ e, Calls C (f e)) :
    Calls C (tryCatch x f) := by
  refine Program.Only.bind hx fun r => ?_
  cases r with
  | ok a => trivial
  | error e => exact hf e

theorem Calls.ite {c : Prop} [Decidable c] {x y : Throwing Ω A α} (hx : Calls C x) (hy : Calls C y) :
    Calls C (if c then x else y) := by
  split_ifs
  · exact hx
  · exact hy

theorem Calls.forM {l : List α} {f : α → Throwing Ω A Unit} (hf : ∀ a, Calls C (f a)) : Calls C (l.forM f) := by
  induction l with
  | nil => exact calls_pure ()
  | cons a l ih => exact (hf a).bind fun _ => ih

theorem calls_call {op : Op} (hop : C op) : Calls C (Throwing.call op : Throwing Ω A op.Result) :=
  Program.only_perform hop

theorem calls_state : Calls C (Throwing.state : Throwing Ω A VaultState) := ⟨trivial, fun _ => trivial⟩

end Throwing

/-! ## What a client does with the vault object -/

section Performs

variable {S : Sodium} {F : Format} {envs : Nat → Env} {ω Ω α β : Type} {A : Ω → Type} {g : Handler Ω A ω}

/-- The same end: what is returned is in `Q`, with the site after it. -/
inductive Performed (Q : α → Site Proc ω → Prop) : Except Fault α × Proc → Option (Except Exn α × Site Proc ω) → Prop
  | ok {a : α} {s : Site Proc ω} (h : Q a s) : Performed Q (.ok a, s.vault) (some (.ok a, s))
  | exn (x : Exn) (s : Site Proc ω) : Performed Q (.error (.exn x), s.vault) (some (.error x, s))
  | trap (p : Proc) : Performed Q (.error .trap, p) none

/-- At the sites in `P` the client does with the vault object what `x` does, and returns in `Q`. -/
def Performs (S : Sodium) (F : Format) (envs : Nat → Env) (g : Handler Ω A ω) (P : Site Proc ω → Prop) (x : Act α)
    (y : Throwing Ω A α) (Q : α → Site Proc ω → Prop) : Prop :=
  ∀ s, P s → Performed Q (x s.vault) (y.run.run ((vaultBackend S F).handler envs g) s)

variable {P P' : Site Proc ω → Prop} {Q Q' : α → Site Proc ω → Prop} {R : β → Site Proc ω → Prop}

theorem Performed.mono {r : Except Fault α × Proc} {r' : Option (Except Exn α × Site Proc ω)} (h : Performed Q r r')
    (hQ : ∀ a s, Q a s → Q' a s) : Performed Q' r r' := by
  cases h with
  | ok h => exact .ok (hQ _ _ h)
  | exn x s => exact .exn x s
  | trap p => exact .trap p

theorem Performed.returned {r : Except Fault α × Proc} {r' : Option (Except Exn α × Site Proc ω)} (h : Performed Q r r') :
    r'.map (fun x => (x.1, x.2.vault)) = Passdoq.returned r := by
  cases h <;> rfl

theorem Performs.mono {x : Act α} {y : Throwing Ω A α} (h : Performs S F envs g P x y Q) (hP : ∀ s, P' s → P s)
    (hQ : ∀ a s, Q a s → Q' a s) : Performs S F envs g P' x y Q' := fun s hs => (h s (hP s hs)).mono hQ

theorem performs_pure {a : α} (h : ∀ s, P s → Q a s) : Performs S F envs g P (pure a) (pure a) Q :=
  fun s hs => .ok (h s hs)

theorem Performs.bind {x : Act α} {y : Throwing Ω A α} {f : α → Act β} {k : α → Throwing Ω A β}
    (h : Performs S F envs g P x y Q) (hf : ∀ a, Performs S F envs g (Q a) (f a) (k a) R) :
    Performs S F envs g P (x >>= f) (y >>= k) R := by
  intro s hs
  have hxy := h s hs
  rw [Eff.bind_apply, ExceptT.run_bind, Program.run_bind]
  generalize x s.vault = r, y.run.run ((vaultBackend S F).handler envs g) s = r' at hxy
  cases hxy with
  | ok ha => exact hf _ _ ha
  | exn x s => exact .exn x s
  | trap p => exact .trap p

/-- Before the client does what `x` does, it does nothing to the vault. -/
theorem Performs.after {I : Site Proc ω → Prop} {a : α} {y : Throwing Ω A α} {x : Act β} {k : α → Throwing Ω A β}
    (h : Performs S F envs g P (pure a) y fun b s => b = a ∧ I s) (hk : Performs S F envs g I x (k a) R) :
    Performs S F envs g P x (y >>= k) R := by
  have hbind : Performs S F envs g P (pure a >>= fun _ => x) (y >>= k) R := by
    refine h.bind fun b s hs => ?_
    obtain ⟨rfl, hs⟩ := hs
    exact hk s hs
  exact hbind

theorem Performs.map {x : Act α} {y : Throwing Ω A α} (h : Performs S F envs g P x y Q) {f : α → β}
    (hf : ∀ a s, Q a s → R (f a) s) : Performs S F envs g P (f <$> x) (f <$> y) R :=
  h.bind fun a => performs_pure (hf a)

theorem Performs.ite {c : Prop} [Decidable c] {x x' : Act α} {y y' : Throwing Ω A α} (h : Performs S F envs g P x y Q)
    (h' : Performs S F envs g P x' y' Q) : Performs S F envs g P (if c then x else x') (if c then y else y') Q := by
  split_ifs
  · exact h
  · exact h'

/-- An early return where a call has failed. -/
theorem Performs.unless {b : Bool} {x x' : Act α} {y y' : Throwing Ω A α} (h : b = false → Performs S F envs g P x y Q)
    (h' : b = true → Performs S F envs g P x' y' Q) :
    Performs S F envs g P (if ¬ b then x else x') (if ¬ b then y else y') Q := by
  cases b with
  | false => exact h rfl
  | true => exact h' rfl

/-- `catch (const std::exception&)`. -/
theorem Performs.catching {x x' : Act α} {y : Throwing Ω A α} {f : Exn → Throwing Ω A α} (h : Performs S F envs g P x y Q)
    (hf : ∀ e, Performs S F envs g (fun _ => True) x' (f e) Q) :
    Performs S F envs g P (Eff.catching Fault.isException x x') (tryCatch y f) Q := by
  intro s hs
  have hxy := h s hs
  change Performed Q _ ((y.run >>= _).run _ s)
  rw [Eff.catching_apply, Program.run_bind]
  generalize x s.vault = r, y.run.run ((vaultBackend S F).handler envs g) s = r' at hxy
  cases hxy with
  | ok ha => exact .ok ha
  | exn e s => exact hf e s trivial
  | trap p => exact .trap p

theorem performs_call (op : Op) {e : Env} {Q : op.Result → Site Proc ω → Prop} (he : ∀ s, P s → envs s.calls = e)
    (hQ : ∀ s a p, P s → perform S F e op s.vault = (.ok a, p) → Q a ⟨p, s.calls + 1, s.rest⟩) :
    Performs S F envs g P (perform S F e op) (Throwing.call op) Q := by
  intro s hs
  change Performed Q _ (((returned (perform S F (envs s.calls) op s.vault)).map _).bind _)
  rw [he s hs]
  have hreturn := hQ s
  generalize perform S F e op s.vault = r at hreturn
  obtain ⟨(x | _) | a, p⟩ := r
  · exact .exn x ⟨p, s.calls + 1, s.rest⟩
  · exact .trap p
  · exact .ok (hreturn a p hs rfl)

/-- A use of what is beside the vault, whose answer is known. -/
theorem performs_other {o : Ω} {a : A o} {Q : A o → Site Proc ω → Prop}
    (h : ∀ s, P s → ∃ w, g s.rest o = some (a, w) ∧ Q a { s with rest := w }) :
    Performs S F envs g P (pure a) (ExceptT.lift (Program.perform (Use.other o))) Q := by
  intro s hs
  obtain ⟨w, hw, hQ⟩ := h s hs
  change Performed Q _ (((g s.rest o).map _).bind _)
  rw [hw]
  exact .ok hQ

theorem performs_state {f : Vault → Act β} {k : VaultState → Throwing Ω A β}
    (h : ∀ v, Performs S F envs g (fun s => P s ∧ s.vault.vault = v) (f v) (k v.state) R) :
    Performs S F envs g P (Vault.getVault >>= f) (Throwing.state >>= k) R :=
  fun s hs => h s.vault.vault s ⟨hs, rfl⟩

end Performs

end Passdoq
