import OpenRom.Connection.Invariants
import OpenRom.Proxy.ProxiedConnection

/-!
# Keys of a proxied connection

The two connections agree on the key as long as the client sends no key frame that `OnEvent` would
take over (`keys_agree`). A key frame of the client is not ignored, though `OnLocalNewKey` says that
it will be: its key is installed before that is called (`client_key_installed`).
-/

set_option autoImplicit false

namespace OpenRom

/-- Whenever the connection to the client has a key, it is that of the connection to the server. -/
def ROMProxiedConnection.KeysAgree (pc : ROMProxiedConnection) : Prop :=
  pc.localConnection.haveKey = true → pc.localConnection.key = pc.remoteConnection.key

/-- Two states of a proxied connection have the same keys. -/
def ROMProxiedConnection.SameKeys (pc pc' : ROMProxiedConnection) : Prop :=
  (pc'.localConnection.key = pc.localConnection.key ∧
    pc'.localConnection.haveKey = pc.localConnection.haveKey) ∧
  (pc'.remoteConnection.key = pc.remoteConnection.key ∧
    pc'.remoteConnection.haveKey = pc.remoteConnection.haveKey)

/-- If the loop comes to a key frame next, its key is the one that the connection has. -/
def ROMConnection.RepeatsKey (c : ROMConnection) : Prop :=
  ∀ f ∈ c.nextFrame, f.pFlag &&& ROM_PACKET_FLAG_KEY ≠ 0 → f.pData.length = ROM_KEY_LENGTH →
    c.haveKey = true ∧ f.pData.map (unmangle 8) = c.key.bytes

namespace ROMProxiedConnection

variable (px : ROMProxy)

/-- Every key frame that the loop comes to in this event of the client repeats the key. -/
def LocalKeysRepeat (pc : ROMProxiedConnection) (packet : List UInt8) (out : Outside) : Prop :=
  ∀ c w, pc.localConnection.Passes px.localHost packet (pc.remoteConnection.toSession, out) (c, w) →
    c.RepeatsKey

/-- Runs of a proxied connection: events of the two sides in any order, and anything that happens
outside. The reads of the client are those that `Allowed` admits. -/
inductive Runs (Allowed : ROMProxiedConnection → List UInt8 → Outside → Prop) :
    ROMProxiedConnection → Outside → Prop
  | start (out : Outside) : Runs Allowed .fresh out
  | outside {pc : ROMProxiedConnection} {out : Outside} (out' : Outside) :
      Runs Allowed pc out → Runs Allowed pc out'
  | localEvent {pc pc' : ROMProxiedConnection} {out out' : Outside} {packet : List UInt8}
      {ok : Bool} : Runs Allowed pc out → Allowed pc packet out →
        pc.onLocalEvent px packet out = some (ok, pc', out') → Runs Allowed pc' out'
  | remoteEvent {pc pc' : ROMProxiedConnection} {out out' : Outside} {packet : List UInt8}
      {ok : Bool} : Runs Allowed pc out →
        pc.onRemoteEvent px packet out = some (ok, pc', out') → Runs Allowed pc' out'

variable {px}

/-- An event of the client whose key frames repeat the key changes no key. -/
theorem onLocalEvent_sameKeys {pc pc' : ROMProxiedConnection} {out out' : Outside}
    {packet : List UInt8} {ok : Bool} (hrepeat : LocalKeysRepeat px pc packet out)
    (he : pc.onLocalEvent px packet out = some (ok, pc', out')) : SameKeys pc pc' := by
  -- both sessions have the keys that they had before the event
  let I (s : Session) (w : Session × Outside) : Prop :=
    (s.key = pc.localConnection.key ∧ s.haveKey = pc.localConnection.haveKey) ∧
      (w.1.key = pc.remoteConnection.key ∧ w.1.haveKey = pc.remoteConnection.haveKey)
  have hkeeps : px.localHost.Keeps I := by
    refine ⟨fun _ hI => hI, ?_, fun _ hI => hI⟩
    intro s w p p' w' hI hp
    simp only [ROMProxy.localHost, ROMProxy.onLocalPacket, Option.bind_eq_bind,
      Option.bind_eq_some_iff] at hp
    obtain ⟨r, hr, hp⟩ := hp
    cases hp
    have hs := (Session.sendPacket_eq_some hr).2
    refine ⟨hI.1, ?_⟩
    rw [hs]
    exact hI.2
  have hkey : ∀ {c w}, pc.localConnection.Passes px.localHost packet
      (pc.remoteConnection.toSession, out) (c, w) → I c.toSession w →
        ∀ f ∈ c.nextFrame, px.localHost.KeepsKey I c.toSession f w := by
    intro c w hpasses hI f hf hlen w' hflag hnew
    -- the key that is installed is the one the connection has
    obtain ⟨hhave, hsame⟩ := hrepeat c w hpasses f hf hflag hlen
    cases hnew
    refine ⟨⟨?_, hhave.symm.trans hI.1.2⟩, hI.2⟩
    rw [← hI.1.1]
    simp only [Session.installKey, hsame]
  have hsat := ROMConnection.onEvent_satisfies hkeeps ⟨⟨rfl, rfl⟩, rfl, rfl⟩ hkey
  unfold onLocalEvent at he
  split at he
  · cases he
  next c remote out₁ ho =>
    rw [ho] at hsat
    cases he
    exact hsat

/-- An event of the server leaves the connections with one key. -/
theorem onRemoteEvent_keysAgree {pc pc' : ROMProxiedConnection} {out out' : Outside}
    {packet : List UInt8} {ok : Bool} (hagree : pc.KeysAgree)
    (he : pc.onRemoteEvent px packet out = some (ok, pc', out')) : pc'.KeysAgree := by
  -- the other session, when it has a key, has that of this one
  let I (s : Session) (w : Session × Outside) : Prop := w.1.haveKey = true → w.1.key = s.key
  have hkeeps : px.remoteHost.Keeps I := by
    refine ⟨fun _ hI => hI, ?_, fun _ hI => hI⟩
    intro s w p p' w' hI hp
    simp only [ROMProxy.remoteHost, ROMProxy.onRemotePacket, Option.bind_eq_bind,
      Option.bind_eq_some_iff] at hp
    obtain ⟨r, hr, hp⟩ := hp
    cases hp
    have hs := (Session.sendPacket_eq_some hr).2
    show I s (_, _)
    rw [hs]
    exact hI
  have hkey : ∀ {c w}, pc.remoteConnection.Passes px.remoteHost packet
      (pc.localConnection.toSession, out) (c, w) → I c.toSession w →
        ∀ f ∈ c.nextFrame, px.remoteHost.KeepsKey I c.toSession f w := by
    intro c w _ _ f _ hlen w' _ hnew
    simp only [ROMProxy.remoteHost, ROMProxy.onRemoteNewKey, Option.bind_eq_bind,
      Option.bind_eq_some_iff] at hnew
    -- the new key is copied
    obtain ⟨loc, hcopy, r, -, hw⟩ := hnew
    cases hw
    cases hcopy
    exact fun _ => rfl
  have hstart : I pc.remoteConnection.toSession (pc.localConnection.toSession, out) := hagree
  have hsat := ROMConnection.onEvent_satisfies hkeeps hstart hkey
  unfold onRemoteEvent at he
  split at he
  · cases he
  next c loc out₁ ho =>
    rw [ho] at hsat
    cases he
    exact hsat

/-- In every run in which the client's key frames repeat the key, the connections agree on the key,
and no event of the client changes a key. -/
theorem keys_agree (px : ROMProxy) {pc : ROMProxiedConnection} {out : Outside}
    (hruns : Runs px (LocalKeysRepeat px) pc out) :
    pc.KeysAgree ∧ ∀ packet ok pc' out', LocalKeysRepeat px pc packet out →
      pc.onLocalEvent px packet out = some (ok, pc', out') → SameKeys pc pc' := by
  refine ⟨?_, fun packet ok pc' out' => onLocalEvent_sameKeys⟩
  -- an event of the client changes no key, and one of the server keeps them in agreement
  induction hruns with
  | start out => exact nofun
  | outside out' _ ih => exact ih
  | localEvent _ hrepeat he ih =>
      have hsame := onLocalEvent_sameKeys hrepeat he
      intro hhave
      rw [hsame.1.1, hsame.2.1]
      exact ih (hsame.1.2.symm.trans hhave)
  | remoteEvent _ he ih => exact onRemoteEvent_keysAgree ih he

end ROMProxiedConnection

/-- A key frame. -/
def keyFrame : List UInt8 := [22, 0, 0, 0, 3, 0, 0, 255, 0, 0, 0, 0, 1, 2, 3, 4, 5, 6, 7, 8, 9, 10]

namespace ROMProxiedConnection

/-- The connection to the client has a key after the event. -/
def localHasKey (r : Bool × ROMProxiedConnection × Outside) : Bool := r.2.1.localConnection.haveKey

/-- After a key frame of the server both connections have its key. -/
theorem keys_agree_keyFrame : ∃ pc out, Runs .plain (LocalKeysRepeat .plain) pc out ∧
    pc.localConnection.haveKey = true ∧
      pc.localConnection.key = pc.remoteConnection.key := by
  have hevent : ∃ r, fresh.onRemoteEvent .plain keyFrame ⟨[], [], []⟩ = some r ∧
      localHasKey r = true :=
    (Option.any_eq_true localHasKey _).1 (by decide +kernel)
  obtain ⟨⟨ok, pc, out⟩, he, hhave⟩ := hevent
  have hruns : Runs .plain (LocalKeysRepeat .plain) pc out := .remoteEvent (.start _) he
  exact ⟨pc, out, hruns, hhave, (keys_agree .plain hruns).1 hhave⟩

/-- A client that sends a key frame first is not ignored: its key is installed. -/
theorem client_key_installed :
    ¬ ∀ (px : ROMProxy) (pc : ROMProxiedConnection) (out : Outside),
      Runs px (fun _ _ _ => True) pc out → pc.KeysAgree ∧
        ∀ packet ok pc' out', pc.onLocalEvent px packet out = some (ok, pc', out') →
          SameKeys pc pc' := by
  intro hall
  have hevent : ∃ r, fresh.onLocalEvent .plain keyFrame ⟨[], [], []⟩ = some r ∧
      localHasKey r = true :=
    (Option.any_eq_true localHasKey _).1 (by decide +kernel)
  obtain ⟨⟨ok, pc, out⟩, he, hhave⟩ := hevent
  -- that would leave the connection without a key
  have hsame := (hall .plain fresh _ (.start ⟨[], [], []⟩)).2 _ _ _ _ he
  have hnone : localHasKey (ok, pc, out) = false := hsame.1.2
  rw [hhave] at hnone
  cases hnone

end ROMProxiedConnection

end OpenRom
