import Passdoq.Lib.Run

/-!
# Calls of one object over a network

Clients call an object over a network. A call is a request and its reply. The object takes the requests one at a time, in
any order; a message can be lost; a client that waits can give up at any time, and its request can still be taken later.

* `Net`, `Net.step` : the object, the messages on their way, the clients that wait, and what the clients have seen;
* `Linear` : one order of the calls, in which the object gives every reply that was seen, and that agrees with real time;
* `Explained.step`, `Net.linear` : a step leaves the order or goes on with it, so every run has one;
* `Linear.mirror` : an order for one object is an order for every object that replies the same.
-/

namespace Network

variable {κ ι ρ α σ τ : Type}

inductive Message (κ ρ α : Type)
  | request (client : κ) (request : ρ)
  | reply (client : κ) (reply : α)

/-- What happens at a client: it calls, it gets the reply, or it gives up. -/
inductive Seen (κ ρ α : Type)
  | invoked (client : κ) (call : Nat) (request : ρ)
  | returned (client : κ) (call : Nat) (reply : α)
  | failed (client : κ) (call : Nat)

inductive Event (κ ι ρ : Type)
  | invoke (client : κ) (request : ρ)
  | handle (call : Nat) (input : ι)
  | lose (call : Nat)
  | receive (call : Nat)
  | giveUp (client : κ)

/-- `messages n` is the message of the `n`-th call that is on its way. -/
structure Net (κ ρ α σ : Type) where
  object : σ
  calls : Nat
  messages : Nat → Option (Message κ ρ α)
  waiting : κ → Option Nat
  seen : List (Seen κ ρ α)

/-- A call that the object has taken, with its input at that time. -/
structure Handled (κ ι ρ α : Type) where
  client : κ
  call : Nat
  input : ι
  request : ρ
  reply : α

/-! ## Steps -/

namespace Net

variable [DecidableEq κ] (obj : ι → ρ → σ → Option (α × σ))

def start (s : σ) : Net κ ρ α σ := ⟨s, 0, fun _ => none, fun _ => none, []⟩

/-- The object is given by `obj`; where it is `none`, it stops. -/
def step (net : Net κ ρ α σ) : Event κ ι ρ → Option (Net κ ρ α σ)
  | .invoke k r =>
    if net.waiting k = none then
      some { net with
        calls := net.calls + 1
        messages := Function.update net.messages net.calls (some (.request k r))
        waiting := Function.update net.waiting k (some net.calls)
        seen := net.seen ++ [.invoked k net.calls r] }
    else none
  | .handle n i =>
    match net.messages n with
    | some (.request k r) => (obj i r net.object).map fun x => { net with
        object := x.2
        messages := Function.update net.messages n (some (.reply k x.1)) }
    | _ => none
  | .lose n => some { net with messages := Function.update net.messages n none }
  | .receive n =>
    match net.messages n with
    | some (.reply k a) =>
      if net.waiting k = some n then
        some { net with
          messages := Function.update net.messages n none
          waiting := Function.update net.waiting k none
          seen := net.seen ++ [.returned k n a] }
      -- the client has given up
      else some { net with messages := Function.update net.messages n none }
    | _ => none
  | .giveUp k =>
    match net.waiting k with
    | some n => some { net with
        waiting := Function.update net.waiting k none
        seen := net.seen ++ [.failed k n] }
    | none => none

end Net

/-! ## Histories -/

def Seen.begun : Seen κ ρ α → Option Nat
  | .invoked _ n _ => some n
  | _ => none

/-- A client begins a call when it waits for none, and ends the call that it waits for. -/
def Seen.turn [DecidableEq κ] (waiting : κ → Option Nat) : Seen κ ρ α → Option (κ → Option Nat)
  | .invoked k n _ => if waiting k = none then some (Function.update waiting k (some n)) else none
  | .returned k n _ => if waiting k = some n then some (Function.update waiting k none) else none
  | .failed k n => if waiting k = some n then some (Function.update waiting k none) else none

/-- The object takes the calls one after another, with the replies that are given. -/
def Replays (obj : ι → ρ → σ → Option (α × σ)) : σ → List (Handled κ ι ρ α) → σ → Prop
  | s, [], s' => s = s'
  | s, h :: order, s' => ∃ t, obj h.input h.request s = some (h.reply, t) ∧ Replays obj t order s'

/-- The order explains what the clients have seen while the object went from `s` to `s'`. -/
structure Linear [DecidableEq κ] (obj : ι → ρ → σ → Option (α × σ)) (s s' : σ) (seen : List (Seen κ ρ α))
    (order : List (Handled κ ι ρ α)) : Prop where
  /-- Each client makes one call at a time, and no two calls have one number. -/
  turns : (runs Seen.turn (fun _ => none) seen).isSome
  numbered : (seen.filterMap Seen.begun).Nodup
  replays : Replays obj s order s'
  once : (order.map Handled.call).Nodup
  invoked : ∀ h ∈ order, .invoked h.client h.call h.request ∈ seen
  returned : ∀ k n a, .returned k n a ∈ seen → ∃ h ∈ order, h.client = k ∧ h.call = n ∧ h.reply = a
  /-- A call that returned before another began is before it in the order. -/
  realTime : ∀ k m a h, h ∈ order → [.returned k m a, .invoked h.client h.call h.request].Sublist seen →
    [m, h.call].Sublist (order.map Handled.call)

theorem replays_snoc {obj : ι → ρ → σ → Option (α × σ)} {order : List (Handled κ ι ρ α)} {h : Handled κ ι ρ α}
    {s s' t : σ} (hr : Replays obj s order s') (hh : obj h.input h.request s' = some (h.reply, t)) :
    Replays obj s (order ++ [h]) t := by
  induction order generalizing s with
  | nil =>
    obtain rfl : s = s' := hr
    exact ⟨t, hh, rfl⟩
  | cons h₁ order ih =>
    obtain ⟨s₁, hs₁, hr⟩ := hr
    exact ⟨s₁, hs₁, ih hr⟩

/-- What one object replies, the other replies as well, on related states. -/
def Mirrors (R : σ → τ → Prop) (obj : ι → ρ → σ → Option (α × σ)) (obj' : ι → ρ → τ → Option (α × τ)) : Prop :=
  ∀ i r s t a s', R s t → obj i r s = some (a, s') → ∃ t', obj' i r t = some (a, t') ∧ R s' t'

theorem Replays.mirror {obj : ι → ρ → σ → Option (α × σ)} {obj' : ι → ρ → τ → Option (α × τ)} {R : σ → τ → Prop}
    {order : List (Handled κ ι ρ α)} {s s' : σ} (hobj : Mirrors R obj obj') {u : τ} (hR : R s u) (h : Replays obj s order s') :
    ∃ u', Replays obj' u order u' ∧ R s' u' := by
  induction order generalizing s u with
  | nil =>
    obtain rfl : s = s' := h
    exact ⟨u, rfl, hR⟩
  | cons x order ih =>
    obtain ⟨s₁, hs₁, h⟩ := h
    obtain ⟨u₁, hu₁, hR₁⟩ := hobj x.input x.request s u x.reply s₁ hR hs₁
    obtain ⟨u', hu', hR'⟩ := ih hR₁ h
    exact ⟨u', ⟨u₁, hu₁, hu'⟩, hR'⟩

theorem put_message {messages : Nat → Option (Message κ ρ α)} {n m : Nat} {put : Option (Message κ ρ α)}
    {x : Message κ ρ α} (h : Function.update messages n put m = some x) :
    (m = n ∧ put = some x) ∨ (m ≠ n ∧ messages m = some x) := by
  by_cases hm : m = n
  · rw [hm, Function.update_self] at h
    exact .inl ⟨hm, h⟩
  · rw [Function.update_of_ne hm] at h
    exact .inr ⟨hm, h⟩

theorem pair_sublist_snoc {β : Type} {x y z : β} {l : List β} :
    [x, y].Sublist (l ++ [z]) ↔ [x, y].Sublist l ∨ (x ∈ l ∧ y = z) := by
  constructor
  · intro h
    rw [← List.reverse_sublist, List.reverse_append] at h
    change [y, x].Sublist (z :: l.reverse) at h
    cases h with
    | cons _ h => exact .inl (List.reverse_sublist.mp h)
    | cons_cons _ h => exact .inr ⟨List.mem_reverse.mp (List.singleton_sublist.mp h), rfl⟩
  · rintro (h | ⟨h, rfl⟩)
    · exact h.trans (List.sublist_append_left l [z])
    · exact (List.singleton_sublist.mpr h).append (List.Sublist.refl [y])

variable [DecidableEq κ] {obj : ι → ρ → σ → Option (α × σ)} {s s' t : σ} {seen : List (Seen κ ρ α)}
  {order : List (Handled κ ι ρ α)} {net net' : Net κ ρ α σ} {ev : Event κ ι ρ}

theorem Linear.start (obj : ι → ρ → σ → Option (α × σ)) (s : σ) :
    Linear obj s s ([] : List (Seen κ ρ α)) ([] : List (Handled κ ι ρ α)) where
  turns := rfl
  numbered := List.nodup_nil
  replays := rfl
  once := List.nodup_nil
  invoked := nofun
  returned := nofun
  realTime := nofun

theorem Linear.invoked_unique (h : Linear obj s s' seen order) {k k' : κ} {n : Nat} {r r' : ρ}
    (hk : .invoked k n r ∈ seen) (hk' : .invoked k' n r' ∈ seen) : k = k' ∧ r = r' := by
  have hpairs := List.pairwise_filterMap.mp h.numbered
  by_contra hne
  have hne' : (Seen.invoked k n r : Seen κ ρ α) ≠ .invoked k' n r' := by
    intro hsame
    obtain ⟨hclient, -, hrequest⟩ := Seen.invoked.inj hsame
    exact hne ⟨hclient, hrequest⟩
  have hsym : Std.Symm fun x y : Seen κ ρ α => ∀ m ∈ x.begun, ∀ m' ∈ y.begun, m ≠ m' :=
    ⟨fun x y hxy m hm m' hm' => (hxy m' hm' m hm).symm⟩
  exact hpairs.forall hk hk' hne' n rfl n rfl rfl

theorem Linear.taken (h : Linear obj s s' seen order) {k : κ} {n : Nat} {r : ρ} {a : α} (hk : .invoked k n r ∈ seen)
    (ha : .returned k n a ∈ seen) : ∃ x ∈ order, x.client = k ∧ x.call = n ∧ x.request = r ∧ x.reply = a := by
  obtain ⟨x, hx, hclient, hcall, hreply⟩ := h.returned k n a ha
  have hinv := h.invoked x hx
  rw [hcall] at hinv
  exact ⟨x, hx, hclient, hcall, (h.invoked_unique hinv hk).2, hreply⟩

/-- A client sees something: the order still explains it, where a reply is one of the order and a call is none of it. -/
theorem Linear.see (h : Linear obj s s' seen order) {o : Seen κ ρ α}
    (hturns : (runs Seen.turn (fun _ => none) (seen ++ [o])).isSome)
    (hnumbered : ((seen ++ [o]).filterMap Seen.begun).Nodup)
    (hreturned : ∀ k n a, o = .returned k n a → ∃ h ∈ order, h.client = k ∧ h.call = n ∧ h.reply = a)
    (hinvoked : ∀ h ∈ order, o ≠ .invoked h.client h.call h.request) : Linear obj s s' (seen ++ [o]) order where
  turns := hturns
  numbered := hnumbered
  replays := h.replays
  once := h.once
  invoked x hx := List.mem_append_left [o] (h.invoked x hx)
  returned k n a hmem := by
    rcases List.mem_append.mp hmem with hmem | hmem
    · exact h.returned k n a hmem
    · exact hreturned k n a (List.mem_singleton.mp hmem).symm
  realTime k m a x hx hpair := by
    rcases pair_sublist_snoc.mp hpair with hpair | ⟨-, hlast⟩
    · exact h.realTime k m a x hx hpair
    · exact absurd hlast.symm (hinvoked x hx)

/-- The object takes a call that it has not taken. -/
theorem Linear.handle (h : Linear obj s s' seen order) {x : Handled κ ι ρ α}
    (hx : obj x.input x.request s' = some (x.reply, t)) (hinvoked : .invoked x.client x.call x.request ∈ seen)
    (hfresh : x.call ∉ order.map Handled.call) : Linear obj s t seen (order ++ [x]) where
  turns := h.turns
  numbered := h.numbered
  replays := replays_snoc h.replays hx
  once := by
    rw [List.map_append]
    exact List.Nodup.append h.once (List.nodup_singleton _) (List.disjoint_singleton.mpr hfresh)
  invoked y hy := by
    rcases List.mem_append.mp hy with hy | hy
    · exact h.invoked y hy
    · rw [List.mem_singleton.mp hy]
      exact hinvoked
  returned k n a hmem := by
    obtain ⟨y, hy, hsame⟩ := h.returned k n a hmem
    exact ⟨y, List.mem_append_left [x] hy, hsame⟩
  realTime k m a y hy hpair := by
    rw [List.map_append]
    rcases List.mem_append.mp hy with hy | hy
    · exact (h.realTime k m a y hy hpair).trans (List.sublist_append_left _ _)
    · rw [List.mem_singleton.mp hy]
      -- the other call has returned, so it has been taken before
      have hmem : .returned k m a ∈ seen := hpair.subset (List.mem_cons_self)
      obtain ⟨z, hz, -, rfl, -⟩ := h.returned k m a hmem
      exact pair_sublist_snoc.mpr (.inr ⟨List.mem_map_of_mem hz, rfl⟩)

/-! ## Every run is linear -/

/-- The order explains what was seen, and the messages on their way are those of calls that are not yet in the order, or that
are. -/
structure Explained (obj : ι → ρ → σ → Option (α × σ)) (s : σ) (net : Net κ ρ α σ) (order : List (Handled κ ι ρ α)) :
    Prop where
  linear : Linear obj s net.object net.seen order
  turn : runs Seen.turn (fun _ => none) net.seen = some net.waiting
  begun : net.seen.filterMap Seen.begun = List.range net.calls
  request : ∀ n k r, net.messages n = some (.request k r) → .invoked k n r ∈ net.seen ∧ n ∉ order.map Handled.call
  reply : ∀ n k a, net.messages n = some (.reply k a) → ∃ h ∈ order, h.client = k ∧ h.call = n ∧ h.reply = a

theorem Explained.start (obj : ι → ρ → σ → Option (α × σ)) (s : σ) :
    Explained obj s (Net.start s : Net κ ρ α σ) [] where
  linear := Linear.start obj s
  turn := rfl
  begun := rfl
  request := nofun
  reply := nofun

namespace Explained

theorem lt_calls (h : Explained obj s net order) {k : κ} {n : Nat} {r : ρ} (hn : .invoked k n r ∈ net.seen) :
    n < net.calls := by
  have hmem : n ∈ net.seen.filterMap Seen.begun := List.mem_filterMap.mpr ⟨_, hn, rfl⟩
  rw [h.begun] at hmem
  exact List.mem_range.mp hmem

theorem taken_lt_calls (h : Explained obj s net order) {n : Nat} (hn : n ∈ order.map Handled.call) : n < net.calls := by
  obtain ⟨x, hx, rfl⟩ := List.mem_map.mp hn
  exact h.lt_calls (h.linear.invoked x hx)

theorem drop (h : Explained obj s net order) (n : Nat) :
    Explained obj s { net with messages := Function.update net.messages n none } order where
  linear := h.linear
  turn := h.turn
  begun := h.begun
  request m k r hm := by
    rcases put_message hm with ⟨-, hput⟩ | ⟨-, hold⟩
    · cases hput
    · exact h.request m k r hold
  reply m k a hm := by
    rcases put_message hm with ⟨-, hput⟩ | ⟨-, hold⟩
    · cases hput
    · exact h.reply m k a hold

theorem finish (h : Explained obj s net order) {k : κ} {o : Seen κ ρ α} (ho : o.begun = none)
    (hturn : Seen.turn net.waiting o = some (Function.update net.waiting k none))
    (hreturned : ∀ k n a, o = .returned k n a → ∃ h ∈ order, h.client = k ∧ h.call = n ∧ h.reply = a) :
    Explained obj s { net with waiting := Function.update net.waiting k none, seen := net.seen ++ [o] } order := by
  have hturns : runs Seen.turn (fun _ => none) (net.seen ++ [o]) = some (Function.update net.waiting k none) :=
    runs_snoc.mpr ⟨_, h.turn, hturn⟩
  have hbegun : (net.seen ++ [o]).filterMap Seen.begun = List.range net.calls := by
    rw [List.filterMap_append, h.begun]
    simp [ho]
  refine ⟨?_, hturns, hbegun, ?_, h.reply⟩
  · refine h.linear.see ?_ ?_ hreturned ?_
    · rw [hturns]
      rfl
    · rw [hbegun]
      exact List.nodup_range
    · rintro x - rfl
      cases ho
  · intro m k r hm
    obtain ⟨hinv, hfresh⟩ := h.request m k r hm
    exact ⟨List.mem_append_left [o] hinv, hfresh⟩

theorem invoke (h : Explained obj s net order) {k : κ} {r : ρ} (hk : net.waiting k = none) :
    Explained obj s { net with
      calls := net.calls + 1
      messages := Function.update net.messages net.calls (some (.request k r))
      waiting := Function.update net.waiting k (some net.calls)
      seen := net.seen ++ [.invoked k net.calls r] } order := by
  have hturns : runs Seen.turn (fun _ => none) (net.seen ++ [.invoked k net.calls r]) =
      some (Function.update net.waiting k (some net.calls)) := runs_snoc.mpr ⟨_, h.turn, if_pos hk⟩
  have hbegun : (net.seen ++ [Seen.invoked k net.calls r]).filterMap Seen.begun = List.range (net.calls + 1) := by
    rw [List.filterMap_append, h.begun, List.range_succ]
    rfl
  have hfresh : net.calls ∉ order.map Handled.call := fun hmem => Nat.lt_irrefl _ (h.taken_lt_calls hmem)
  refine ⟨?_, hturns, hbegun, ?_, ?_⟩
  · refine h.linear.see ?_ ?_ nofun ?_
    · rw [hturns]
      rfl
    · rw [hbegun]
      exact List.nodup_range
    · intro x hx hsame
      obtain ⟨-, hcall, -⟩ := Seen.invoked.inj hsame
      exact hfresh (hcall ▸ List.mem_map_of_mem hx)
  · intro m k' r' hm
    rcases put_message hm with ⟨rfl, hput⟩ | ⟨-, hold⟩
    · obtain ⟨rfl, rfl⟩ := Message.request.inj (Option.some.inj hput)
      exact ⟨List.mem_append_right _ List.mem_cons_self, hfresh⟩
    · obtain ⟨hinv, hnew⟩ := h.request m k' r' hold
      exact ⟨List.mem_append_left _ hinv, hnew⟩
  · intro m k' a hm
    rcases put_message hm with ⟨-, hput⟩ | ⟨-, hold⟩
    · cases hput
    · exact h.reply m k' a hold

theorem handle (h : Explained obj s net order) {n : Nat} {k : κ} {r : ρ} {i : ι} {a : α}
    (hn : net.messages n = some (.request k r)) (ha : obj i r net.object = some (a, t)) :
    Explained obj s { net with object := t, messages := Function.update net.messages n (some (.reply k a)) }
      (order ++ [⟨k, n, i, r, a⟩]) := by
  obtain ⟨hinv, hfresh⟩ := h.request n k r hn
  refine ⟨h.linear.handle ha hinv hfresh, h.turn, h.begun, ?_, ?_⟩
  · intro m k' r' hm
    rcases put_message hm with ⟨-, hput⟩ | ⟨hne, hold⟩
    · cases hput
    · obtain ⟨hinv', hfresh'⟩ := h.request m k' r' hold
      refine ⟨hinv', ?_⟩
      rw [List.map_append, List.mem_append, not_or]
      exact ⟨hfresh', fun hmem => hne (List.mem_singleton.mp hmem)⟩
  · intro m k' a' hm
    rcases put_message hm with ⟨rfl, hput⟩ | ⟨-, hold⟩
    · obtain ⟨rfl, rfl⟩ := Message.reply.inj (Option.some.inj hput)
      exact ⟨_, List.mem_append_right order List.mem_cons_self, rfl, rfl, rfl⟩
    · obtain ⟨x, hx, hsame⟩ := h.reply m k' a' hold
      exact ⟨x, List.mem_append_left _ hx, hsame⟩

/-- A step leaves the order, or adds a call at its end. -/
theorem step (h : Explained obj s net order) (hs : net.step obj ev = some net') :
    ∃ more, Explained obj s net' (order ++ more) := by
  cases ev with
  | invoke k r =>
    rw [Net.step, Option.ite_none_right_eq_some] at hs
    obtain ⟨hk, hnet⟩ := hs
    refine ⟨[], ?_⟩
    rw [List.append_nil, ← Option.some.inj hnet]
    exact h.invoke hk
  | handle n i =>
    rw [Net.step] at hs
    split at hs
    case h_1 k r hn =>
      obtain ⟨⟨a, t⟩, ha, hnet⟩ := Option.map_eq_some_iff.mp hs
      rw [← hnet]
      exact ⟨_, h.handle hn ha⟩
    case h_2 => cases hs
  | lose n =>
    refine ⟨[], ?_⟩
    rw [List.append_nil, ← Option.some.inj hs]
    exact h.drop n
  | receive n =>
    refine ⟨[], ?_⟩
    rw [List.append_nil]
    rw [Net.step] at hs
    split at hs
    case h_1 k a hn =>
      split_ifs at hs with hk
      · rw [← Option.some.inj hs]
        refine (h.drop n).finish (k := k) (o := .returned k n a) rfl (if_pos hk) ?_
        intro k' n' a' hsame
        obtain ⟨rfl, rfl, rfl⟩ := Seen.returned.inj hsame
        exact h.reply n k a hn
      · rw [← Option.some.inj hs]
        exact h.drop n
    case h_2 => cases hs
  | giveUp k =>
    refine ⟨[], ?_⟩
    rw [List.append_nil]
    rw [Net.step] at hs
    split at hs
    case h_1 n hn =>
      rw [← Option.some.inj hs]
      exact h.finish (k := k) (o := .failed k n) rfl (if_pos hn) nofun
    case h_2 => cases hs

theorem run {evs : List (Event κ ι ρ)} (h : Explained obj s net order) (hr : runs (Net.step obj) net evs = some net') :
    ∃ more, Explained obj s net' (order ++ more) := by
  induction evs generalizing net order with
  | nil =>
    cases hr
    exact ⟨[], by rwa [List.append_nil]⟩
  | cons ev evs ih =>
    obtain ⟨net₁, hnet₁, hr⟩ := runs_cons.mp hr
    obtain ⟨more, hmore⟩ := h.step hnet₁
    obtain ⟨more', hmore'⟩ := ih hmore hr
    exact ⟨more ++ more', by rwa [← List.append_assoc]⟩

end Explained

/-- In every run the clients see what one order of the calls explains. -/
theorem Net.linear {evs : List (Event κ ι ρ)} (hr : runs (Net.step obj) (Net.start s) evs = some net) :
    ∃ order, Linear obj s net.object net.seen order := by
  obtain ⟨order, h⟩ := (Explained.start obj s).run hr
  exact ⟨order, h.linear⟩

/-! ## Another object -/

section Simulation

variable {obj' : ι → ρ → τ → Option (α × τ)} {R : σ → τ → Prop}

theorem Linear.mirror (hobj : Mirrors R obj obj') {u : τ} (hR : R s u) (h : Linear obj s s' seen order) :
    ∃ u', Linear obj' u u' seen order ∧ R s' u' := by
  obtain ⟨u', hu', hR'⟩ := h.replays.mirror hobj hR
  exact ⟨u', { h with replays := hu' }, hR'⟩

end Simulation

end Network
