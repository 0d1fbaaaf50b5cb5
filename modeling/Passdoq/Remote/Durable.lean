import Passdoq.Remote.Server
import Passdoq.Vault.KeyWrap

/-!
# Acknowledged requests on disk

A handler answers without looking at what its `save` returned, so an acknowledged request is on disk when that save
put its bytes there.

* `Serving` : the vault's file holds what a save wrote, and the object has its header and, when unlocked, its keys;
  every request keeps this whose save writes all or nothing (`serve_serving`);
* `acknowledged_durable` : what an acknowledged request did is in the file once its own save went through.
-/

namespace Passdoq
open Msgpack Crypto Vault

variable {S : Sodium} {F : Format} {e : Env} {p p' : Proc} {passphrase : Bytes}

/-- The object works on a file that a save wrote, and that its passphrase unlocks. -/
def Serving (S : Sodium) (F : Format) (passphrase : Bytes) (p : Proc) : Prop :=
  ∃ v mk dk nonce b, Wraps S v mk dk ∧ Derives S passphrase v.header.salt mk ∧ Keyed v.entries ∧
    fileBytes S F nonce v = .ok b ∧ p.fs p.vault.path = some b ∧ p.vault.header = v.header ∧ Keyed p.vault.entries ∧
    (p.vault.state = .locked ∨
      p.vault.state = .unlocked ∧ p.vault.masterKey = some mk ∧ p.vault.dataKey = some dk)

/-- The save of the request, if it makes one, writes all of its bytes or does not open the file. -/
def AllOrNothing (_ : Proc) (r : Served) : Prop := ∀ k good, r.env.write ≠ .short k good

/-- A save in the state `q` puts all its bytes on disk: they can be serialized, and the write is complete. -/
def Puts (S : Sodium) (F : Format) (e : Env) (q : Proc) : Prop :=
  (∃ good, e.write = .full good) ∧ ∃ b, fileBytes S F e.nonce q.vault = .ok b

/-- The save that the handler makes puts all its bytes on disk. -/
def SavePuts (S : Sodium) (F : Format) (p : Proc) (r : Served) : Prop :=
  match r.request with
  | .addEntry name username secret => Puts S F r.env (added r.env p name username secret)
  | .deleteEntry id => Puts S F r.env (deleted p id)
  | _ => True

/-- What an acknowledged request did is what every reload shows. -/
def Durable (S : Sodium) (F : Format) (passphrase : Bytes) (p : Proc) : Request → Answer → Prop
  | .addEntry name username secret, .id id => id ≠ [] → ∀ r, Reload S F passphrase p r → r.1 = .ok true ∧
      ∃ entry, r.2.vault.entries.find? id = some entry ∧ entry.name = name ∧ entry.username = username ∧
        entry.secret = secret
  | .deleteEntry id, .bool b => b = true → ∀ r, Reload S F passphrase p r → r.1 = .ok true ∧
      r.2.vault.entries.find? id = none
  | _, _ => True

/-! ## The file stays the vault's -/

theorem Derives.pwhash {salt : Bytes} {mk : Key} (h : Derives S passphrase salt mk) :
    ∃ arg, mk = S.pwhash passphrase arg := by
  obtain ⟨d, hd, rfl⟩ := h (Block.const _ 0) none
  exact deriveMasterKey_salt hd

theorem Serving.keysHold (h : Serving S F passphrase p) (hs : p.vault.state = .unlocked) :
    KeysHold S passphrase p.vault := by
  obtain ⟨v, mk, dk, nonce, b, hw, hd, -, -, -, hh, -, hst⟩ := h
  rcases hst with hl | ⟨-, hm, hdk⟩
  · cases hs.symm.trans hl
  · exact ⟨mk, dk, ⟨hm, hdk, fun e => by rw [hh, hw.unwrap]⟩, by rw [hh]; exact hd⟩

/-- A save that writes all or nothing leaves the file of some save of a vault with the same keys and header. -/
theorem save_serving (h : Serving S F passphrase p) (hw : ∀ k good, e.write ≠ .short k good) (es : OrdMap Bytes Entry)
    (hk : Keyed es) (hs : p.vault.state = .unlocked) :
    Serving S F passphrase (save S F e (p.assign p.vault.header es)).2 := by
  obtain ⟨mk', dk', hw', hd'⟩ := h.keysHold hs
  have hold : Serving S F passphrase (p.assign p.vault.header es) := by
    obtain ⟨v, mk, dk, nonce, b, hwr, hd, hkv, hb, hfs, hh, -, hst⟩ := h
    exact ⟨v, mk, dk, nonce, b, hwr, hd, hkv, hb, hfs, hh, hk, hst⟩
  rw [save_unlocked (p := p.assign p.vault.header es) hs]
  rcases Except.ok_or_error (fileBytes S F e.nonce (p.assign p.vault.header es).vault) with ⟨b, hb⟩ | ⟨f, hb⟩
  · rw [hb]
    cases hwrite : e.write with
    | refused => exact hold
    | short k good => exact absurd hwrite (hw k good)
    | full good =>
      exact ⟨(p.assign p.vault.header es).vault, mk', dk', e.nonce, b, ⟨hw'.masterKey, hw'.dataKey, hw'.unwrap⟩,
        hd', hk, hb, Function.update_self _ _ _, rfl, hk, Or.inr ⟨hs, hw'.masterKey, hw'.dataKey⟩⟩
  · rw [hb]
    cases f <;> exact hold

theorem unlock_serving (hS : S.Correct) (hR : S.Rejects) (hF : F.Lawful) (h : Serving S F passphrase p) {pw : Bytes}
    (hr : (unlock S F e pw p).1 ≠ .error .trap) : Serving S F passphrase (unlock S F e pw p).2 := by
  have h' := h
  obtain ⟨v, mk, dk, nonce, b, hwr, hd, hkv, hb, hfs, hh, hk, -⟩ := h'
  rcases unlock_cases S F e p pw with
    ⟨-, hu⟩ | ⟨-, f, -, hu⟩ | ⟨-, d, hder, ⟨x, -, hu⟩ | ⟨p', hu⟩ | ⟨b', dk', hun, hcopy, hu⟩⟩ <;> rw [hu] at hr ⊢
  · exact h
  · exact h
  · exact h
  · exact absurd rfl hr
  · -- only the vault's own master key opens the wrapped key
    obtain ⟨arg, hmk⟩ := hd.pwhash
    obtain ⟨arg', hkey⟩ := deriveMasterKey_salt hder
    have heq : d.key = mk := by
      rw [hkey]
      refine hwr.unwrap_eq (e := e) hS hR hmk (b := b') ?_
      rw [← hkey, ← hh, hun]
    rw [heq, hh, hwr.unwrap, Except.ok.injEq] at hun
    subst hun
    obtain rfl : dk = dk' := Except.ok.inj ((copyInto_of_length (n := DATA_KEY_SIZE) dk.2 _).symm.trans hcopy)
    rw [heq]
    by_cases hread : e.read = .whole
    · have hdec := decodeFile_fileBytes (w := (p.withKeys mk dk).vault) hS hF hkv hb e rfl hwr.dataKey.symm
      rw [load_ok (p := p.withKeys mk dk) hfs hread hdec]
      refine ⟨v, mk, dk, nonce, b, hwr, hd, hkv, hb, hfs, rfl, ?_, Or.inr ⟨rfl, rfl, rfl⟩⟩
      exact (decodeFile_entries hdec).2 hk
    · rw [load_of_not_read (fun _ _ => hread)]
      exact ⟨v, mk, dk, nonce, b, hwr, hd, hkv, hb, hfs, hh, hk, Or.inr ⟨rfl, rfl, rfl⟩⟩

theorem Serving.dataKey (h : Serving S F passphrase p) (hs : p.vault.state = .unlocked) : p.vault.dataKey.isSome := by
  obtain ⟨v, mk, dk, nonce, b, -, -, -, -, -, -, -, hst⟩ := h
  rcases hst with hl | ⟨-, -, hdk⟩
  · cases hs.symm.trans hl
  · rw [hdk]
    rfl

theorem Serving.keyed (h : Serving S F passphrase p) : Keyed p.vault.entries := by
  obtain ⟨v, mk, dk, nonce, b, -, -, -, -, -, -, hk, -⟩ := h
  exact hk

theorem added_keyed (h : Keyed p.vault.entries) (name username secret : Bytes) :
    Keyed (added e p name username secret).vault.entries := h.insert { Entry.blank with
  id := generateId e.id, name := name, username := username, secret := secret, created := e.now, modified := e.now }

/-- Every request whose save writes all or nothing keeps the file the vault's. -/
theorem serve_serving (hS : S.Correct) (hR : S.Rejects) (hF : F.Lawful) (h : Serving S F passphrase p) {r : Served}
    (hw : AllOrNothing p r) (hr : p.serve S F r = some p') : Serving S F passphrase p' := by
  obtain ⟨client, e, r⟩ := r
  obtain ⟨hne, rfl⟩ := Proc.serve_eq_some.mp hr
  cases r with
  | unlock pw =>
    simp only [serve_unlock_snd]
    exact unlock_serving hS hR hF h fun ht => hne (serve_unlock_trap ht)
  | lock =>
    simp only [serve_lock, lock_apply]
    split_ifs with hs
    · obtain ⟨v, mk, dk, nonce, b, hwr, hd, hkv, hb, hfs, hh, -, -⟩ := h
      exact ⟨v, mk, dk, nonce, b, hwr, hd, hkv, hb, hfs, hh, keyed_empty, Or.inl rfl⟩
    · exact h
  | addEntry name username secret =>
    by_cases hs : p.vault.state = .unlocked
    · simp only [serve_addEntry hs (h.dataKey hs)]
      exact save_serving h hw _ (added_keyed h.keyed name username secret) hs
    · rw [serve_closed hs (by simp)]
      exact h
  | getEntry id out =>
    by_cases hs : p.vault.state = .unlocked
    · rw [serve_getEntry hs]
      exact h
    · rw [serve_closed hs (by simp)]
      exact h
  | listEntries =>
    by_cases hs : p.vault.state = .unlocked
    · rw [serve_listEntries hs]
      exact h
    · rw [serve_closed hs (by simp)]
      exact h
  | deleteEntry id =>
    by_cases hs : p.vault.state = .unlocked
    · simp only [serve_deleteEntry hs (h.dataKey hs)]
      split_ifs
      · exact save_serving h hw _ (h.keyed.erase id) hs
      · have hk := h.keyed.erase id
        obtain ⟨v, mk, dk, nonce, b, hwr, hd, hkv, hb, hfs, hh, -, hst⟩ := h
        exact ⟨v, mk, dk, nonce, b, hwr, hd, hkv, hb, hfs, hh, hk, hst⟩
    · rw [serve_closed hs (by simp)]
      exact h

theorem run_serving (hS : S.Correct) (hR : S.Rejects) (hF : F.Lawful) (h : Serving S F passphrase p)
    {calls : List Served} (hrun : runs (Proc.serve S F) p calls = some p')
    (hw : Along (Proc.serve S F) AllOrNothing p calls) : Serving S F passphrase p' :=
  runs_invariant (I := Serving S F passphrase) (fun _ _ _ hI hC hs => serve_serving hS hR hF hI hC hs) h hw hrun

/-- An unlocked vault whose bytes are in its file, like one just created or saved, can be served. -/
theorem serving_of_written (h : KeysHold S passphrase p.vault) (hk : Keyed p.vault.entries)
    (hs : p.vault.state = .unlocked) {nonce : Nonce} {b : Bytes} (hb : fileBytes S F nonce p.vault = .ok b)
    (hfs : p.fs p.vault.path = some b) : Serving S F passphrase p := by
  obtain ⟨mk, dk, hw, hd⟩ := h
  exact ⟨p.vault, mk, dk, nonce, b, hw, hd, hk, hb, hfs, rfl, hk, Or.inr ⟨hs, hw.masterKey, hw.dataKey⟩⟩

/-! ## Acknowledged requests -/

/-- After a save that put its bytes on disk, a reload shows the entries that were saved, up to seconds. -/
theorem Puts.reload (hS : S.Correct) (hF : F.Lawful) (h : Serving S F passphrase p) {es : OrdMap Bytes Entry}
    (hk : Keyed es) (hs : p.vault.state = .unlocked) (hput : Puts S F e (p.assign p.vault.header es))
    {r : Except Fault Bool × Proc} (hr : Reload S F passphrase (save S F e (p.assign p.vault.header es)).2 r) :
    r.1 = .ok true ∧ r.2.vault.entries = es.mapVal Entry.truncate := by
  obtain ⟨⟨good, hwrite⟩, b, hb⟩ := hput
  obtain ⟨mk, dk, hw, hd⟩ := h.keysHold hs
  have hp' : (save S F e (p.assign p.vault.header es)).2 =
      ⟨(p.assign p.vault.header es).vault, Function.update p.fs p.vault.path (some b)⟩ := by
    rw [save_unlocked (p := p.assign p.vault.header es) hs, hb, hwrite]
    rfl
  rw [hp'] at hr
  obtain rfl := reload_written (p := ⟨(p.assign p.vault.header es).vault, Function.update p.fs p.vault.path (some b)⟩)
    hS hF hs hk ⟨hw.masterKey, hw.dataKey, hw.unwrap⟩ hd hb (Function.update_self _ _ _) hr
  exact ⟨rfl, rfl⟩

theorem addEntry_durable (hS : S.Correct) (hF : F.Lawful) (h : Serving S F passphrase p) {name username secret : Bytes}
    (hput : Puts S F e (added e p name username secret)) {ans : Answer}
    (hserve : serve S F true e (.addEntry name username secret) p = (.ok ans, p')) :
    Durable S F passphrase p' (.addEntry name username secret) ans := by
  by_cases hs : p.vault.state = .unlocked
  · rw [serve_addEntry hs (h.dataKey hs)] at hserve
    obtain ⟨rfl, rfl⟩ : Answer.id (generateId e.id) = ans ∧ _ := by simpa using hserve
    intro _ r hr
    obtain ⟨hok, hes⟩ := hput.reload hS hF h (added_keyed h.keyed name username secret) hs hr
    refine ⟨hok, ?_⟩
    rw [hes, OrdMap.find?_mapVal]
    simp [added, Entry.truncate]
  · rw [serve_closed hs (by simp)] at hserve
    obtain ⟨rfl, -⟩ : Answer.id [] = ans ∧ _ := by simpa [closedAnswer] using hserve
    exact fun hne => absurd rfl hne

theorem deleteEntry_durable (hS : S.Correct) (hF : F.Lawful) (h : Serving S F passphrase p) {id : Bytes}
    (hput : Puts S F e (deleted p id)) {ans : Answer}
    (hserve : serve S F true e (.deleteEntry id) p = (.ok ans, p')) :
    Durable S F passphrase p' (.deleteEntry id) ans := by
  by_cases hs : p.vault.state = .unlocked
  · rw [serve_deleteEntry hs (h.dataKey hs)] at hserve
    obtain ⟨rfl, rfl⟩ : Answer.bool (p.vault.entries.find? id).isSome = ans ∧ _ := by simpa using hserve
    intro hsome r hr
    rw [if_pos hsome] at hr
    obtain ⟨hok, hes⟩ := hput.reload hS hF h (h.keyed.erase id) hs hr
    refine ⟨hok, ?_⟩
    rw [hes, OrdMap.find?_mapVal]
    simp [OrdMap.find?_erase]
  · rw [serve_closed hs (by simp)] at hserve
    obtain ⟨rfl, -⟩ : Answer.bool false = ans ∧ _ := by simpa [closedAnswer] using hserve
    exact fun hne => by cases hne

/-- In every run of requests over a vault's file whose saves write all or nothing, a request whose own save puts its
bytes on disk is durable once it is acknowledged. -/
theorem acknowledged_durable (hS : S.Correct) (hR : S.Rejects) (hF : F.Lawful) {p₀ : Proc}
    (h₀ : Serving S F passphrase p₀) {calls : List Served} (hrun : runs (Proc.serve S F) p₀ calls = some p)
    (hw : Along (Proc.serve S F) AllOrNothing p₀ calls) (c : Served) (hput : SavePuts S F p c) {ans : Answer}
    (hserve : serve S F true c.env c.request p = (.ok ans, p')) : Durable S F passphrase p' c.request ans := by
  have h := run_serving hS hR hF h₀ hrun hw
  obtain ⟨client, e, r⟩ := c
  cases r with
  | addEntry name username secret => exact addEntry_durable hS hF h hput hserve
  | deleteEntry id => exact deleteEntry_durable hS hF h hput hserve
  | _ => cases ans <;> trivial

/-- A vault just created is served under its passphrase. -/
theorem created_serving : ∃ p₀, runs (Proc.step .toy spec) ⟨.fresh, fun _ => none⟩ createdRun = some p₀ ∧
    Serving .toy spec (ascii "passphrase") p₀ := by
  have hcheck : (runs (Session.step .toy spec) (.start fun _ => none) createdRun).any fun s =>
      s.proc.vault.state = .unlocked ∧ s.passphrase = ascii "passphrase" ∧
      (fileBytes .toy spec (Env.calm 7 .epoch).nonce s.proc.vault).toOption.isSome ∧
      (fileBytes .toy spec (Env.calm 7 .epoch).nonce s.proc.vault).toOption = s.proc.fs s.proc.vault.path := by
    decide +kernel
  obtain ⟨s, hrun, hcheck⟩ := (Option.any_eq_true _ _).mp hcheck
  obtain ⟨hs, hpass, hsome, hfs⟩ := of_decide_eq_true hcheck
  have hkeys := run_keysInv toy_correct hrun ⟨trivial, fun _ _ => trivial⟩ hs
  obtain ⟨b, hb⟩ : ∃ b, fileBytes .toy spec (Env.calm 7 .epoch).nonce s.proc.vault = .ok b := by
    rcases Except.ok_or_error (fileBytes .toy spec (Env.calm 7 .epoch).nonce s.proc.vault) with h | ⟨f, h⟩
    · exact h
    · rw [h] at hsome
      cases hsome
  rw [hb] at hfs
  exact ⟨s.proc, Session.runs_proc hrun, hpass ▸ serving_of_written hkeys (Session.reachable hrun).keyed hs hb hfs.symm⟩

theorem acknowledged_durable_created : ∃ p p' id, Durable .toy spec (ascii "passphrase") p'
    (.addEntry (ascii "mail") (ascii "me") (ascii "secret")) (.id id) ∧
    serve .toy spec true (Env.calm 8 .epoch) (.addEntry (ascii "mail") (ascii "me") (ascii "secret")) p =
      (.ok (.id id), p') := by
  obtain ⟨p₀, hrun, hserving⟩ := created_serving
  have hcheck : (runs (Proc.step .toy spec) ⟨.fresh, fun _ => none⟩ createdRun).any fun p => p.vault.state = .unlocked ∧
      p.vault.dataKey.isSome ∧ (fileBytes .toy spec (Env.calm 8 .epoch).nonce
        (added (Env.calm 8 .epoch) p (ascii "mail") (ascii "me") (ascii "secret")).vault).toOption.isSome := by
    decide +kernel
  rw [hrun, Option.any_some] at hcheck
  obtain ⟨hs, hk, hsome⟩ := of_decide_eq_true hcheck
  have hput : Puts .toy spec (Env.calm 8 .epoch)
      (added (Env.calm 8 .epoch) p₀ (ascii "mail") (ascii "me") (ascii "secret")) := by
    refine ⟨⟨true, rfl⟩, ?_⟩
    rcases Except.ok_or_error (fileBytes .toy spec (Env.calm 8 .epoch).nonce
      (added (Env.calm 8 .epoch) p₀ (ascii "mail") (ascii "me") (ascii "secret")).vault) with h | ⟨f, h⟩
    · exact h
    · rw [h] at hsome
      cases hsome
  have hserve : serve .toy spec true (Env.calm 8 .epoch) (.addEntry (ascii "mail") (ascii "me") (ascii "secret")) p₀ =
      _ := serve_addEntry hs hk
  exact ⟨p₀, _, _, acknowledged_durable toy_correct toy_rejects spec_lawful hserving (runs_nil) trivial
    ⟨0, Env.calm 8 .epoch, .addEntry (ascii "mail") (ascii "me") (ascii "secret")⟩ hput hserve, hserve⟩

/-- The handler's save does not open the file: the request is acknowledged, and a reload does not show the entry. -/
theorem acknowledged_durable_refused : ∃ p₀ p id, Serving .toy spec (ascii "passphrase") p₀ ∧
    serve .toy spec true { Env.calm 8 .epoch with write := .refused }
      (.addEntry (ascii "mail") (ascii "me") (ascii "secret")) p₀ = (.ok (.id id), p) ∧
    ¬ Durable .toy spec (ascii "passphrase") p (.addEntry (ascii "mail") (ascii "me") (ascii "secret")) (.id id) := by
  obtain ⟨p₀, hrun, hserving⟩ := created_serving
  have hcheck : (runs (Proc.step .toy spec) ⟨.fresh, fun _ => none⟩ createdRun).any fun p => p.vault.state = .unlocked ∧
      p.vault.dataKey.isSome ∧ (relock .toy spec (Env.calm 9 .epoch) (ascii "passphrase")
        (save .toy spec { Env.calm 8 .epoch with write := .refused } (added { Env.calm 8 .epoch with write := .refused } p
          (ascii "mail") (ascii "me") (ascii "secret"))).2).2.vault.entries = ∅ := by
    decide +kernel
  rw [hrun, Option.any_some] at hcheck
  obtain ⟨hs, hk, hempty⟩ := of_decide_eq_true hcheck
  refine ⟨p₀, _, _, hserving, serve_addEntry hs hk, fun h => ?_⟩
  obtain ⟨-, entry, hfind, -⟩ := h (by decide) _ (.relock (Env.calm 9 .epoch) rfl rfl)
  rw [hempty] at hfind
  cases hfind

end Passdoq
