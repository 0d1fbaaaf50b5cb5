import Passdoq.Lib.Linear
import Passdoq.Remote.Server
import Passdoq.Vault.Client

/-!
# Many clients of one server

The clients of `remote.cpp` call the server over a network, at the same time. The server's loop takes one request after
another, each in a world of its own; messages can be lost, and a client method that gets an exception instead of a reply
returns while its request may still be on its way. An exception that leaves a handler leaves the loop as well.

* `RpcServer.handle` : a handler and what the client method makes of its reply; `serve_handle` : the client method, with its
  `catch`;
* `Handling.handle` : the same for a client of any backend; `does_handle` : it does what the handlers on the vault object do;
* `remote`, `remoteNotebook` : the object that the clients call, over the vault and over a notebook;
* `rpc_linear` : what all clients see is explained by one order of the requests on a notebook, and which request stops the
  server.
-/

namespace Passdoq
open Msgpack Crypto Vault Network

/-! ## Handlers and client methods -/

section Handle

variable (S : Sodium) (F : Format) (bound : Bool) (e : Env)

/-- What the handler does with a request, and the client method with the reply. -/
def RpcServer.handle : Request → Act Answer
  | .unlock passphrase => Answer.bool <$> RpcServer.unlock S F bound e passphrase
  | .lock => (fun _ => Answer.unit) <$> RpcServer.lock bound
  | .addEntry name username secret => Answer.id <$> RpcServer.addEntry S F bound e name username secret
  | .getEntry id _ => (fun r => Answer.entry (!r.1.isEmpty) r.1 r.2.1 r.2.2) <$> RpcServer.getEntry bound id
  | .listEntries => Answer.ids <$> RpcServer.listEntries bound
  | .deleteEntry id => Answer.bool <$> RpcServer.deleteEntry S F bound e id

/-- What a client method returns when no reply reaches it. -/
def Request.fallback : Request → Answer
  | .unlock _ | .deleteEntry _ => .bool false
  | .lock => .unit
  | .addEntry _ _ _ => .id []
  | .getEntry _ out => .entry false out.1 out.2.1 out.2.2
  | .listEntries => .ids []

variable {S F bound e}

theorem map_orElse {α β : Type} (f : α → β) (x : Act α) (a : α) :
    f <$> RpcClient.orElse x a = RpcClient.orElse (f <$> x) (f a) := by
  funext p
  rw [RpcClient.orElse, RpcClient.orElse, Eff.map_apply, Eff.catching_apply, Eff.catching_apply, Eff.map_apply]
  rcases x p with ⟨(_ | _) | _, _⟩ <;> rfl

/-- A client method returns what comes of the reply, or its fallback where the handler throws. -/
theorem serve_handle (r : Request) : serve S F bound e r = RpcClient.orElse (RpcServer.handle S F bound e r) r.fallback := by
  cases r with
  | getEntry id out =>
    rw [serve, RpcClient.getEntry, map_orElse]
    refine congrArg (RpcClient.orElse · _) (funext fun p => ?_)
    rw [Eff.map_apply, Eff.bind_apply, RpcServer.handle, Eff.map_apply]
    rcases RpcServer.getEntry bound id p with ⟨_ | _, _⟩ <;> rfl
  | _ => exact map_orElse _ _ _

end Handle

/-! ## Handlers over the interface of a vault -/

/-- What a handler does: it uses the vault, and may throw. -/
abbrev Handling := Throwing Empty fun _ => Unit

namespace Handling
open Throwing

/-- `catch (const std::exception&)`. -/
def orElse {α : Type} (x : Handling α) (a : α) : Handling α := tryCatch x fun _ => pure a

def unlock (passphrase : Bytes) : Handling Bool := call (.unlock passphrase)

def lock : Handling Unit := call .lock

def addEntry (name username secret : Bytes) : Handling Bytes := do
  if (← state) ≠ .unlocked then return []
  let id : Bytes ← call (.addEntry { Entry.blank with name := name, username := username, secret := secret })
  let _ ← call .save
  return id

def getEntry (id : Bytes) : Handling (Bytes × Bytes × Bytes) := do
  if (← state) ≠ .unlocked then return ([], [], [])
  orElse
    (do
      let entry : Entry ← call (.getEntry id)
      return (entry.name, entry.username, entry.secret))
    ([], [], [])

def listEntries : Handling (List Bytes) := do
  if (← state) ≠ .unlocked then return []
  let entries : List Entry ← call .listEntries
  return entries.map Entry.id

def deleteEntry (id : Bytes) : Handling Bool := do
  if (← state) ≠ .unlocked then return false
  let result : Bool ← call (.deleteEntry id)
  if result then
    let _ ← call .save
  return result

def handle : Request → Handling Answer
  | .unlock passphrase => Answer.bool <$> unlock passphrase
  | .lock => (fun _ => Answer.unit) <$> lock
  | .addEntry name username secret => Answer.id <$> addEntry name username secret
  | .getEntry id _ => (fun r => Answer.entry (!r.1.isEmpty) r.1 r.2.1 r.2.2) <$> getEntry id
  | .listEntries => Answer.ids <$> listEntries
  | .deleteEntry id => Answer.bool <$> deleteEntry id

/-- A handler on a backend, in the world `e`. -/
def on {σ α : Type} (B : Backend σ) (e : Env) (h : Handling α) (s : σ) (n : Nat) : Option (Except Exn α × σ) :=
  (h.run.run (B.handler (fun _ => e) fun (_ : Unit) o => nomatch o) ⟨s, n, ()⟩).map fun x => (x.1, x.2.vault)

end Handling

/-! ## They are the handlers on the vault object -/

section Does

variable {S : Sodium} {F : Format} {e : Env} {α β : Type}

/-- The handler does with the vault object what `x` does. -/
abbrev Does (S : Sodium) (F : Format) (e : Env) (x : Act α) (h : Handling α) : Prop :=
  Performs S F (fun _ => e) (fun (_ : Unit) o => nomatch o) (fun _ => True) x h fun _ _ => True

theorem does_pure (a : α) : Does S F e (pure a) (pure a) := performs_pure fun _ _ => trivial

theorem does_call (op : Op) : Does S F e (perform S F e op) (Throwing.call op) :=
  performs_call op (fun _ _ => rfl) fun _ _ _ _ _ => trivial

theorem does_open {x y : Act α} {h k : Handling α} (hx : Does S F e x h) (hy : Does S F e y k) :
    Does S F e
      (do
        let v ← getVault
        if RpcServer.closed true v then x else y)
      (do if (← Throwing.state) ≠ .unlocked then h else k) := by
  refine performs_state fun v s _ => ?_
  by_cases hs : v.state = .unlocked
  · have hclosed : RpcServer.closed true v = false := by simp [RpcServer.closed, hs]
    rw [if_neg (not_not_intro hs), hclosed]
    exact hy s trivial
  · have hclosed : RpcServer.closed true v = true := by simp [RpcServer.closed, hs]
    rw [if_pos hs, hclosed]
    exact hx s trivial

theorem does_handle (r : Request) : Does S F e (RpcServer.handle S F true e r) (Handling.handle r) := by
  cases r with
  | unlock passphrase => exact (does_call (.unlock passphrase)).map fun _ _ _ => trivial
  | lock => exact (does_call .lock).map fun _ _ _ => trivial
  | addEntry name username secret =>
    refine Performs.map (does_open (does_pure []) ?_) fun _ _ _ => trivial
    exact (does_call (.addEntry _)).bind fun id => (does_call .save).bind fun _ => does_pure id
  | getEntry id out =>
    refine Performs.map (does_open (does_pure _) ?_) fun _ _ _ => trivial
    exact ((does_call (.getEntry id)).bind fun entry => does_pure _).catching fun _ => does_pure _
  | listEntries =>
    refine Performs.map (does_open (does_pure []) ?_) fun _ _ _ => trivial
    exact (does_call .listEntries).bind fun entries => does_pure _
  | deleteEntry id =>
    refine Performs.map (does_open (does_pure false) ((does_call (.deleteEntry id)).bind fun result => ?_)) fun _ _ _ => trivial
    cases result with
    | false => exact does_pure false
    | true => exact (does_call .save).bind fun _ => does_pure true

theorem handle_on (r : Request) (p : Proc) :
    (Handling.handle r).on (vaultBackend S F) e p 0 = returned (RpcServer.handle S F true e r p) :=
  (does_handle r ⟨p, 0, ()⟩ trivial).returned

end Does

/-! ## What the handlers call -/

theorem Calls.orElse {C : Op → Prop} {α : Type} {h : Handling α} (hh : Calls C h) (a : α) : Calls C (h.orElse a) :=
  hh.tryCatch fun _ => calls_pure a

theorem Calls.map {C : Op → Prop} {α β : Type} {h : Handling α} (hh : Calls C h) (f : α → β) : Calls C (f <$> h) :=
  hh.bind fun a => calls_pure (f a)

theorem Calls.open {C : Op → Prop} {α : Type} {h : Handling α} (hh : Calls C h) (a : α) :
    Calls C (do if (← Throwing.state) ≠ .unlocked then pure a else h) :=
  calls_state.bind fun _ => .ite (calls_pure a) hh

/-- No request makes another clasp. -/
theorem keeping_handle (r : Request) : Keeping (Handling.handle r) := by
  cases r with
  | unlock passphrase => exact (keeping_call (.unlock passphrase) rfl).map _
  | lock => exact (keeping_call .lock rfl).map _
  | addEntry name username secret =>
    refine Calls.map (Calls.open ?_ _) _
    exact (keeping_call (.addEntry _) rfl).bind fun (id : Bytes) => (keeping_call .save rfl).bind fun _ => calls_pure id
  | getEntry id out =>
    refine Calls.map (Calls.open ?_ _) _
    exact ((keeping_call (.getEntry id) rfl).bind fun (entry : Entry) => calls_pure _).orElse _
  | listEntries =>
    refine Calls.map (Calls.open ?_ _) _
    exact (keeping_call .listEntries rfl).bind fun (entries : List Entry) => calls_pure _
  | deleteEntry id =>
    refine Calls.map (Calls.open ?_ _) _
    refine (keeping_call (.deleteEntry id) rfl).bind fun (result : Bool) => ?_
    cases result with
    | false => exact calls_pure false
    | true => exact (keeping_call .save rfl).bind fun _ => calls_pure true

/-! ## The server as an object -/

/-- The reply; where the handler throws there is none, and the server's loop ends. -/
def replied {σ α : Type} : Except Exn α × σ → Option (α × σ)
  | (.ok a, s) => some (a, s)
  | (.error _, _) => none

/-- The server over the vault object, with the reply as the client method returns it; `none` where the server stops. -/
def remote (S : Sodium) (F : Format) (e : Env) (r : Request) (p : Proc) : Option (Answer × Proc) :=
  (returned (RpcServer.handle S F true e r p)).bind replied

/-- The server over a notebook. -/
def remoteNotebook (M : Medium) (e : Env) (r : Request) (t : Shelf) : Option (Answer × Shelf) :=
  ((Handling.handle r).on (notebookBackend M) e t 0).bind replied

variable {S : Sodium} {F : Format} {e : Env} {p p' : Proc} {t : Shelf}

/-- The client method returns the reply of the server. -/
theorem serve_remote {r : Request} {a : Answer} (h : remote S F e r p = some (a, p')) :
    serve S F true e r p = (.ok a, p') := by
  rw [serve_handle, RpcClient.orElse, Eff.catching_apply]
  rw [remote] at h
  rcases hr : RpcServer.handle S F true e r p with ⟨(_ | _) | _, _⟩ <;> rw [hr] at h <;> cases h
  rfl

/-- The request that stops the server: memory fails while an `unlock` derives the key of a locked vault. -/
def Request.Stops (e : Env) (state : VaultState) (r : Request) : Prop :=
  (∃ passphrase, r = .unlock passphrase) ∧ state = .locked ∧ e.alloc = false

/-- Only the handler of `unlock` throws: the others come to `add_entry` and the like with the vault unlocked, and `save` lets
no exception out. -/
theorem remote_isSome {r : Request} (hk : p.vault.state = .unlocked → p.vault.dataKey.isSome)
    (hr : ∀ passphrase, r ≠ .unlock passphrase) : (remote S F e r p).isSome := by
  by_cases hs : p.vault.state = .unlocked
  · cases r with
    | unlock passphrase => exact absurd rfl (hr passphrase)
    | lock => simp [remote, RpcServer.handle, RpcServer.lock, lock_apply, returned, replied]
    | addEntry name username secret =>
      obtain ⟨b, hb⟩ := save_returns (S := S) (F := F) (e := e) (p := added e p name username secret) fun _ => hk hs
      generalize (save S F e (added e p name username secret)).2 = p₁ at hb
      simp [added, Entry.blank] at hb
      simp [remote, RpcServer.handle, RpcServer.addEntry, closed_unlocked hs, addEntry_unlocked hs, Entry.blank, hb, returned,
        replied]
    | getEntry id out =>
      cases hf : p.vault.entries.find? id <;>
        simp [remote, RpcServer.handle, RpcServer.getEntry, closed_unlocked hs, getEntry_unlocked hs, hf, Fault.isException,
          Eff.catching_apply, returned, replied]
    | listEntries =>
      simp [remote, RpcServer.handle, RpcServer.listEntries, closed_unlocked hs, listEntries_unlocked hs, returned, replied]
    | deleteEntry id =>
      obtain ⟨b, hb⟩ := save_returns (S := S) (F := F) (e := e) (p := deleted p id) fun _ => hk hs
      generalize (save S F e (deleted p id)).2 = p₁ at hb
      rw [deleted] at hb
      cases hf : p.vault.entries.find? id <;>
        simp [remote, RpcServer.handle, RpcServer.deleteEntry, closed_unlocked hs, deleteEntry_unlocked hs, hf, hb, returned,
          replied]
  · cases r with
    | unlock passphrase => exact absurd rfl (hr passphrase)
    | lock => simp [remote, RpcServer.handle, RpcServer.lock, lock_apply, returned, replied]
    | addEntry name username secret =>
      simp [remote, RpcServer.handle, RpcServer.addEntry, closed_otherwise hs, returned, replied]
    | getEntry id out => simp [remote, RpcServer.handle, RpcServer.getEntry, closed_otherwise hs, returned, replied]
    | listEntries => simp [remote, RpcServer.handle, RpcServer.listEntries, closed_otherwise hs, returned, replied]
    | deleteEntry id => simp [remote, RpcServer.handle, RpcServer.deleteEntry, closed_otherwise hs, returned, replied]

theorem Represents.dataKey_isSome (h : Represents S F p t) (hs : p.vault.state = .unlocked) : p.vault.dataKey.isSome := by
  have hdesk := h.desk
  rw [h.state_eq] at hs
  obtain ⟨desk, notebooks⟩ := t
  cases desk with
  | unlocked path clasp es =>
    rw [hdesk.1]
    rfl
  | _ => cases hs

theorem remote_unlock {passphrase : Bytes} {x : Except Exn Bool} (h : returned (unlock S F e passphrase p) = some (x, p')) :
    remote S F e (.unlock passphrase) p = replied (x.map Answer.bool, p') := by
  rw [remote, RpcServer.handle, RpcServer.unlock, if_neg (not_not_intro rfl), Eff.map_apply]
  rcases hu : unlock S F e passphrase p with ⟨(_ | _) | _, _⟩ <;> rw [hu] at h <;> cases h <;> rfl

theorem unlock_throws {M : Medium} {passphrase : Bytes} {x : Except Exn Bool} {t' : Shelf}
    (h : t.unlock M e passphrase = some (x, t')) :
    (∃ exn, x = .error exn) ↔ t.desk.state = .locked ∧ e.alloc = false := by
  obtain ⟨desk, notebooks⟩ := t
  unfold Shelf.unlock at h
  cases desk with
  | locked path clasp =>
    dsimp only at h
    split_ifs at h with ha ho
    · obtain ⟨r, -, hr⟩ := Option.map_eq_some_iff.mp h
      cases hr
      simp [ha]
    · cases h
      simp [ha]
    · cases h
      simp [ha, Desk.state]
  | _ =>
    cases h
    simp [Desk.state]

/-- The vault answers what the notebook answers, and stops where it stops. -/
theorem remote_answers (hS : S.Correct) (hR : S.Rejects) (hF : F.Lawful) (hW : F.Whole) (h : Represents S F p t)
    (ht : t.Settled) (e : Env) (r : Request) :
    (∃ a p' t', remote S F e r p = some (a, p') ∧ remoteNotebook (vaultMedium S F) e r t = some (a, t') ∧
      Represents S F p' t' ∧ t'.Settled) ∨
    (remote S F e r p = none ∧ remoteNotebook (vaultMedium S F) e r t = none) := by
  obtain ⟨x, ⟨t', n, u⟩, hrun, hsettled⟩ := Program.run_total ((Shelf.notebook_total (vaultMedium S F)).handler (fun _ => e)
    (g := fun (_ : Unit) (o : Empty) => nomatch o) fun _ o => nomatch o) (keeping_handle r) (s := ⟨t, 0, ()⟩) ht
  obtain ⟨⟨p', n', u'⟩, hrun', hrep⟩ := (notebook_refines hS hR hF hW).run (fun _ => e) _ (Handling.handle r).run
    (s := ⟨p, 0, ()⟩) ⟨h, rfl, rfl⟩ hrun
  have hreturned : returned (RpcServer.handle S F true e r p) = some (x, p') := by
    rw [← handle_on r p, Handling.on, hrun']
    rfl
  have hremote : remote S F e r p = replied (x, p') := by
    rw [remote, hreturned]
    rfl
  have hnotebook : remoteNotebook (vaultMedium S F) e r t = replied (x, t') := by
    rw [remoteNotebook, Handling.on, hrun]
    rfl
  cases x with
  | error exn => exact .inr ⟨hremote, hnotebook⟩
  | ok a => exact .inl ⟨a, p', t', hremote, hnotebook, hrep.vault, hsettled⟩

theorem remote_none (hS : S.Correct) (hR : S.Rejects) (hF : F.Lawful) (hW : F.Whole) (h : Represents S F p t)
    (ht : t.Settled) (e : Env) (r : Request) : remote S F e r p = none ↔ r.Stops e p.vault.state := by
  by_cases hr : ∃ passphrase, r = .unlock passphrase
  · obtain ⟨passphrase, rfl⟩ := hr
    obtain ⟨x, t', hx, -⟩ : ∃ x t', t.unlock (vaultMedium S F) e passphrase = some (x, t') ∧ t'.Settled :=
      Shelf.unlock_settled ht
    obtain ⟨p', hp', -⟩ := (notebook_refines hS hR hF hW).call h e (.unlock passphrase) x t' hx
    have hthrows := unlock_throws hx
    rw [remote_unlock hp', Request.Stops, h.state_eq, ← hthrows]
    cases x <;> simp [Except.map, replied]
  · have hsome := remote_isSome (S := S) (F := F) (e := e) (r := r) h.dataKey_isSome fun passphrase hsame => hr ⟨passphrase, hsame⟩
    exact iff_of_false (Option.isSome_iff_ne_none.mp hsome) fun hstops => hr hstops.1

/-! ## All clients -/

/-- What a client method returned: the reply, or its fallback where none was got. -/
def Result {κ : Type} (seen : List (Seen κ Request Answer)) (k : κ) (n : Nat) (r : Request) (a : Answer) : Prop :=
  .invoked k n r ∈ seen ∧ (.returned k n a ∈ seen ∨ (.failed k n ∈ seen ∧ a = r.fallback))

/-- In every run of clients and server, the replies of all clients are those that a notebook gives when it takes the requests
one after another, each at most once, and in an order that agrees with real time. A method that does not return its fallback
returns such a reply. The server goes on with every request but an `unlock` of a locked vault for which there is no memory. -/
theorem rpc_linear (hS : S.Correct) (hR : S.Rejects) (hF : F.Lawful) (hW : F.Whole) (h : Represents S F p t)
    (ht : t.Settled) {κ : Type} [DecidableEq κ] {evs : List (Network.Event κ Env Request)}
    {net : Net κ Request Answer Proc} (hrun : runs (Net.step (remote S F)) (Net.start p) evs = some net) :
    (∃ order t', Linear (remoteNotebook (vaultMedium S F)) t t' net.seen order ∧ Represents S F net.object t' ∧ t'.Settled ∧
      ∀ k n r a, Result net.seen k n r a → a ≠ r.fallback →
        ∃ x ∈ order, x.client = k ∧ x.call = n ∧ x.request = r ∧ x.reply = a) ∧
    ∀ e r, remote S F e r net.object = none ↔ r.Stops e net.object.vault.state := by
  have hmirrors : Mirrors (fun p t => Represents S F p t ∧ t.Settled) (remote S F)
      (remoteNotebook (vaultMedium S F)) := by
    rintro e r p t a p' ⟨hrep, hsettled⟩ hp'
    rcases remote_answers hS hR hF hW hrep hsettled e r with ⟨a', p₁, t', hp₁, ht', hrep', hsettled'⟩ | ⟨hp₁, -⟩
    · obtain ⟨rfl, rfl⟩ := Prod.mk.inj (Option.some.inj (hp₁.symm.trans hp'))
      exact ⟨t', ht', hrep', hsettled'⟩
    · cases hp₁.symm.trans hp'
  obtain ⟨order, hlinear⟩ := Net.linear hrun
  obtain ⟨t', hnotebook, hrep, hsettled⟩ := hlinear.mirror hmirrors ⟨h, ht⟩
  refine ⟨⟨order, t', hnotebook, hrep, hsettled, ?_⟩, remote_none hS hR hF hW hrep hsettled⟩
  rintro k n r a ⟨hinvoked, hreturned | ⟨-, rfl⟩⟩ hne
  · exact hnotebook.taken hinvoked hreturned
  · exact absurd rfl hne

/-- The replies, with their clients. -/
def replies {κ : Type} (seen : List (Seen κ Request Answer)) : List (κ × Answer) :=
  seen.filterMap fun
    | .returned k _ a => some (k, a)
    | _ => none

/-- A client gives up before its request to add an entry is taken, and another one lists the entries after that. -/
def lateRun : List (Network.Event Nat Env Request) := [
  .invoke 0 (.addEntry (ascii "mail") [] (ascii "secret")), .giveUp 0, .handle 0 (Env.calm 8 .epoch),
  .invoke 1 .listEntries, .handle 1 (Env.calm 9 .epoch), .receive 1]

/-- The entry is there. -/
theorem rpc_linear_late : ∃ (p : Proc) (net : Net Nat Request Answer Proc) (t : Shelf), Represents .toy spec p t ∧
    runs (Net.step (remote .toy spec)) (Net.start p) lateRun = some net ∧
    replies net.seen = [(1, .ids [generateId (Block.const 16 8)])] ∧
    ∃ order t', Linear (remoteNotebook (vaultMedium .toy spec)) t t' net.seen order := by
  obtain ⟨p, hp, hrep⟩ := create_represents (e := Env.calm 7 .epoch) spec_whole
    (represents_fresh (S := .toy) (F := spec)) (ascii "vault") (ascii "passphrase")
  have hsettled : (Shelf.create (vaultMedium .toy spec) (Env.calm 7 .epoch) ⟨.closed [], fun _ => none⟩ (ascii "vault")
      (ascii "passphrase")).2.Settled := (Shelf.settled_closed [] fun _ => none).create rfl
  have hcheck : ((returned (create .toy spec (Env.calm 7 .epoch) (ascii "vault") (ascii "passphrase")
      ⟨.fresh, fun _ => none⟩)).bind fun r => runs (Net.step (remote .toy spec)) (Net.start r.2) lateRun).any fun net =>
      replies net.seen = [(1, .ids [generateId (Block.const 16 8)])] := by
    decide +kernel
  rw [hp] at hcheck
  obtain ⟨net, hnet, hreplies⟩ := (Option.any_eq_true _ _).mp hcheck
  obtain ⟨⟨order, t', hlinear, -⟩, -⟩ := rpc_linear toy_correct toy_rejects spec_lawful spec_whole hrep hsettled hnet
  exact ⟨p, net, _, hrep, hnet, of_decide_eq_true hreplies, order, t', hlinear⟩

end Passdoq
