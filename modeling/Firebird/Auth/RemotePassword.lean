import Firebird.Auth.BigInteger

/-! # Agreement on the session key

The key exchange of `src/auth/SecureRemotePassword/srp.cpp`. The hash `sha` is any function of the bytes
that `process` was given. The client reduces the exponent `a + ux` by the prime, which changes the power
unless the order of the generator divides what is lost. -/

namespace Firebird.Auth

open List BigInteger

structure RemoteGroup where
  prime : BigInteger
  generator : BigInteger
  k : BigInteger

structure RemotePassword where
  group : RemoteGroup
  privateKey : BigInteger := 0
  scramble : BigInteger := 0
  clientPublicKey : BigInteger := 0
  serverPublicKey : BigInteger := 0

inductive Error
  | libtommathGeneric (rc : Int) (function : String)
  | random (text : String)

/-- The bytes of `processStrippedInt`. -/
def stripped (data : BigInteger) : Bytes :=
  match getBytes data with
  | 0 :: bytes => bytes
  | bytes => bytes

section
variable (sha : Bytes → Bytes)

def getInt (processed : Bytes) : BigInteger := assign (sha processed)

def RemoteGroup.new (prime generator : BigInteger) : RemoteGroup where
  prime := prime
  generator := generator
  k :=
    let pad := (getBytes prime).length - (getBytes generator).length
    getInt sha (getBytes prime ++ replicate pad 0 ++ getBytes generator)

def getUserHash (account salt password : Bytes) : BigInteger :=
  getInt sha (salt ++ sha (account ++ [':'.toUInt8] ++ password))

def RemoteGroup.computeVerifier (group : RemoteGroup) (account salt password : Bytes) : BigInteger :=
  modPow group.generator (getUserHash sha account salt password) group.prime

end

def RemoteGroup.clientKey (group : RemoteGroup) (privateKey : BigInteger) : BigInteger :=
  modPow group.generator privateKey group.prime

def RemoteGroup.serverKey (group : RemoteGroup) (verifier : Bytes) (privateKey : BigInteger) : BigInteger :=
  let gb := modPow group.generator privateKey group.prime
  let kv := mod (group.k * assign verifier) group.prime
  mod (kv + gb) group.prime

/-- `setKey`, for a key received as text. -/
def RemoteGroup.setKey (group : RemoteGroup) (text : List Char) : Except Error BigInteger :=
  match ofText text with
  | none => .error (.libtommathGeneric (-3) "mp_read_radix(&t, text, radix)")
  | some key => if mod key group.prime < 2 then .error (.random "Trivial public key") else .ok key

namespace RemotePassword

/-- `makePrivate`, with the bytes `GenerateRandomBytes` gives. -/
def makePrivate (r : RemotePassword) (random : Bytes) : RemotePassword :=
  { r with privateKey := mod (assign random) r.group.prime }

def new (group : RemoteGroup) (random : Bytes) : RemotePassword :=
  makePrivate { group } random

/-- The loop of `genClientKey` and `genServerKey`, which makes the private key again from the next random bytes
    while the public one is trivial. -/
def untilNontrivial (publicKey : BigInteger → BigInteger) (r : RemotePassword) :
    List Bytes → Option RemotePassword
  | [] => if 1 < publicKey r.privateKey then some r else none
  | random :: draws =>
    if 1 < publicKey r.privateKey then some r else untilNontrivial publicKey (r.makePrivate random) draws

def genClientKey (r : RemotePassword) (draws : List Bytes) : Option (RemotePassword × List Char) :=
  (r.untilNontrivial r.group.clientKey draws).map fun r =>
    let clientPublicKey := r.group.clientKey r.privateKey
    ({ r with clientPublicKey }, getText clientPublicKey)

def genServerKey (r : RemotePassword) (verifier : Bytes) (draws : List Bytes) :
    Option (RemotePassword × List Char) :=
  (r.untilNontrivial (r.group.serverKey verifier) draws).map fun r =>
    let serverPublicKey := r.group.serverKey verifier r.privateKey
    ({ r with serverPublicKey }, getText serverPublicKey)

section
variable (sha : Bytes → Bytes)

def computeScramble (r : RemotePassword) : RemotePassword :=
  { r with scramble := getInt sha (stripped r.clientPublicKey ++ stripped r.serverPublicKey) }

def clientSessionSecret (r : RemotePassword) (account salt password : Bytes) : BigInteger :=
  let x := getUserHash sha account salt password
  let gx := modPow r.group.generator x r.group.prime
  let kgx := mod (r.group.k * gx) r.group.prime
  let diff := mod (r.serverPublicKey - kgx) r.group.prime
  let ux := mod (r.scramble * x) r.group.prime
  let aux := mod (r.privateKey + ux) r.group.prime
  modPow diff aux r.group.prime

def clientSessionKey (r : RemotePassword) (account salt password : Bytes) : RemotePassword × Bytes :=
  let r := r.computeScramble sha
  (r, sha (stripped (r.clientSessionSecret sha account salt password)))

def serverSessionSecret (r : RemotePassword) (verifier : Bytes) : BigInteger :=
  let vu := modPow (assign verifier) r.scramble r.group.prime
  let avu := mod (r.clientPublicKey * vu) r.group.prime
  modPow avu r.privateKey r.group.prime

def serverSessionKey (r : RemotePassword) (verifier : Bytes) : RemotePassword × Bytes :=
  let r := r.computeScramble sha
  (r, sha (stripped (r.serverSessionSecret verifier)))

/-- `clientProof` with `makeProof`, whose hash is that of the plugin. -/
def clientProof (r : RemotePassword) (digest : Bytes → Bytes) (account salt sessionKey : Bytes) :
    BigInteger :=
  let n1 := getInt sha (getBytes r.group.prime)
  let n2 := getInt sha (getBytes r.group.generator)
  let n1 := modPow n1 n2 r.group.prime
  let n2 := getInt sha account
  getInt digest (getBytes n1 ++ getBytes n2 ++ salt ++ getBytes r.clientPublicKey ++ getBytes r.serverPublicKey ++
    sessionKey)

/-- A login: the first private keys come from `clientRandom` and `serverRandom`. -/
def login (group : RemoteGroup) (account salt password clientRandom serverRandom : Bytes)
    (clientDraws serverDraws : List Bytes) :
    Option ((RemotePassword × Bytes) × (RemotePassword × Bytes)) := do
  let verifier := getBytes (group.computeVerifier sha account salt password)
  let (client, clientPubKey) ← (new group clientRandom).genClientKey clientDraws
  let clientPublicKey ← (group.setKey clientPubKey).toOption
  let (server, serverPubKey) ← { new group serverRandom with clientPublicKey }.genServerKey verifier serverDraws
  let serverPublicKey ← (group.setKey serverPubKey).toOption
  pure ({ client with serverPublicKey }.clientSessionKey sha account salt password,
    server.serverSessionKey sha verifier)

end

/-! ### The session keys -/

theorem assign_nonneg (bytes : Bytes) : 0 ≤ assign bytes := Int.natCast_nonneg _

theorem assign_stripped {t : BigInteger} (ht : 0 ≤ t) : assign (stripped t) = t := by
  have hassign := assign_getBytes ht
  unfold stripped
  split
  next bytes heq =>
    rw [heq] at hassign
    exact hassign
  next => exact hassign

theorem stripped_inj {s t : BigInteger} (hs : 0 ≤ s) (ht : 0 ≤ t) (h : stripped s = stripped t) : s = t := by
  rw [← assign_stripped hs, h, assign_stripped ht]

variable {p : Nat}

theorem mod_natCast (t : BigInteger) : mod t p = t % p := Int.fmod_eq_emod_of_nonneg t (Int.natCast_nonneg p)

@[simp] theorem cast_mod (t : BigInteger) : ((mod t p : BigInteger) : ZMod p) = t := by
  rw [mod_natCast, ZMod.intCast_mod]

@[simp] theorem cast_modPow (t pow : BigInteger) : ((modPow t pow p : BigInteger) : ZMod p) = t ^ pow.toNat := by
  rw [modPow, cast_mod, Int.cast_pow]

theorem mod_nonneg (hp : p ≠ 0) (t : BigInteger) : 0 ≤ mod t p := by
  rw [mod_natCast]
  exact Int.emod_nonneg t (mod_cast hp)

theorem mod_eq_iff {s t : BigInteger} :
    mod s p = mod t p ↔ ((mod s p : BigInteger) : ZMod p) = (mod t p : BigInteger) := by
  rw [cast_mod, cast_mod, mod_natCast, mod_natCast]
  exact (ZMod.intCast_eq_intCast_iff s t p).symm

/-- Reducing the exponent `n` by the prime takes away `p * (n / p)`, which counts as `n / p`. -/
theorem pow_mod_prime_iff [Fact p.Prime] {g : ZMod p} (hg : g ≠ 0) (b n : Nat) :
    (g ^ b) ^ (n % p) = (g ^ n) ^ b ↔ orderOf g ∣ b * (n / p) := by
  have hn : (g ^ n) ^ b = (g ^ b) ^ (n % p) * g ^ (b * (n / p)) := by
    calc (g ^ n) ^ b = (g ^ (n % p + p * (n / p))) ^ b := by rw [Nat.mod_add_div]
      _ = (g ^ b) ^ (n % p) * (g ^ p) ^ (b * (n / p)) := by ring
      _ = (g ^ b) ^ (n % p) * g ^ (b * (n / p)) := by rw [ZMod.pow_card]
  rw [hn, orderOf_dvd_iff_pow_eq_one]
  exact left_eq_mul₀ (pow_ne_zero _ (pow_ne_zero _ hg))

theorem untilNontrivial_spec {publicKey : BigInteger → BigInteger} {draws : List Bytes}
    {r r' : RemotePassword} (h : r.untilNontrivial publicKey draws = some r') (hprime : r.group.prime = p)
    (hp : p ≠ 0) (hr : 0 ≤ r.privateKey) :
    ∃ privateKey, 0 ≤ privateKey ∧ 1 < publicKey privateKey ∧ r' = { r with privateKey } := by
  induction draws generalizing r with
  | nil =>
    obtain ⟨hkey, hr'⟩ := Option.ite_none_right_eq_some.mp h
    exact ⟨_, hr, hkey, (Option.some.inj hr').symm⟩
  | cons random draws ih =>
    rw [untilNontrivial] at h
    split at h
    next hkey => exact ⟨_, hr, hkey, (Option.some.inj h).symm⟩
    next =>
      obtain ⟨privateKey, hnonneg, hkey, hr'⟩ := ih h hprime (by
        rw [makePrivate, hprime]
        exact mod_nonneg hp _)
      exact ⟨privateKey, hnonneg, hkey, hr'⟩

theorem setKey_getText {group : RemoteGroup} {key received : BigInteger} (hkey : 0 ≤ key)
    (h : (group.setKey (getText key)).toOption = some received) : received = key := by
  rw [RemoteGroup.setKey, ofText_getText hkey] at h
  dsimp only at h
  split at h
  · cases h
  · exact (Option.some.inj h).symm

variable {sha : Bytes → Bytes} {account salt password clientRandom serverRandom : Bytes}
  {clientDraws serverDraws : List Bytes} {client server : RemotePassword × Bytes}

/-- Both sides end with the same public keys. -/
theorem login_spec {group : RemoteGroup} (hprime : group.prime = p) (hp : p ≠ 0)
    (h : login sha group account salt password clientRandom serverRandom clientDraws serverDraws =
      some (client, server)) : ∃ a b, 0 ≤ a ∧ 0 ≤ b ∧ 1 < group.clientKey a ∧
      let verifier := getBytes (group.computeVerifier sha account salt password)
      let r : BigInteger → RemotePassword := fun privateKey =>
        { group, privateKey, clientPublicKey := group.clientKey a, serverPublicKey := group.serverKey verifier b }
      client = (r a).clientSessionKey sha account salt password ∧ server = (r b).serverSessionKey sha verifier := by
  unfold login genClientKey genServerKey at h
  simp only [Option.bind_eq_bind, Option.bind_eq_some_iff, Option.map_eq_some_iff, Prod.exists, Prod.mk.injEq] at h
  obtain ⟨_, _, ⟨c, hc, rfl, rfl⟩, A, hA, _, _, ⟨s, hs, rfl, rfl⟩, B, hB, h⟩ := h
  have hrandom : ∀ random, 0 ≤ (new group random).privateKey := fun random => by
    rw [new, makePrivate, hprime]
    exact mod_nonneg hp _
  obtain ⟨a, ha, hkey, rfl⟩ := untilNontrivial_spec hc hprime hp (hrandom clientRandom)
  obtain ⟨b, hb, hkey', rfl⟩ := untilNontrivial_spec hs hprime hp (hrandom serverRandom)
  obtain rfl := setKey_getText (Int.one_pos.le.trans hkey.le) hA
  obtain rfl := setKey_getText (Int.one_pos.le.trans hkey'.le) hB
  obtain ⟨rfl, rfl⟩ := Prod.mk.inj (Option.some.inj h)
  exact ⟨a, b, ha, hb, hkey, rfl, rfl⟩

section
variable {verifier : Bytes} {k A B : BigInteger} {a b u x : Nat}

theorem verifier_cast (hp : p ≠ 0) (hx : getUserHash sha account salt password = x) :
    (assign (getBytes (RemoteGroup.computeVerifier sha ⟨p, 2, k⟩ account salt password)) : ZMod p) = 2 ^ x := by
  have hnonneg : 0 ≤ RemoteGroup.computeVerifier sha ⟨p, 2, k⟩ account salt password := mod_nonneg hp _
  rw [assign_getBytes hnonneg, RemoteGroup.computeVerifier, cast_modPow, hx, Int.toNat_natCast, Int.cast_ofNat]

theorem clientSessionSecret_cast (hx : getUserHash sha account salt password = x)
    (hverifier : (assign verifier : ZMod p) = 2 ^ x) (hB : B = RemoteGroup.serverKey ⟨p, 2, k⟩ verifier b) :
    (clientSessionSecret sha ⟨⟨p, 2, k⟩, a, u, A, B⟩ account salt password : ZMod p) =
      (2 ^ b) ^ ((a + u * x) % p) := by
  have haux : (mod (a + mod (u * x) p) p).toNat = (a + u * x) % p := by
    rw [mod_natCast, mod_natCast, ← Nat.add_mod_mod]
    norm_cast
  subst hB
  simp only [clientSessionSecret, cast_modPow, hx, haux]
  congr 1
  simp [RemoteGroup.serverKey, hverifier]

theorem serverSessionSecret_cast (hverifier : (assign verifier : ZMod p) = 2 ^ x)
    (hA : A = RemoteGroup.clientKey ⟨p, 2, k⟩ a) :
    (serverSessionSecret ⟨⟨p, 2, k⟩, b, u, A, B⟩ verifier : ZMod p) = (2 ^ (a + u * x)) ^ b := by
  subst hA
  simp only [serverSessionSecret, RemoteGroup.clientKey, cast_modPow, cast_mod, Int.cast_mul, hverifier,
    Int.toNat_natCast, Int.cast_ofNat]
  rw [← pow_mul, mul_comm x u, ← pow_add]

theorem two_ne_zero_of_clientKey (hprime : p.Prime) (hkey : 1 < RemoteGroup.clientKey ⟨p, 2, k⟩ a) :
    (2 : ZMod p) ≠ 0 := by
  intro h2
  obtain rfl : p = 2 := (Nat.prime_dvd_prime_iff_eq hprime Nat.prime_two).mp ((ZMod.natCast_eq_zero_iff 2 p).mp h2)
  have hlt : mod (2 ^ a) (2 : Nat) < 2 := mod_natCast (p := 2) _ ▸ Int.emod_lt_of_pos _ (by decide)
  exact absurd hkey hlt.not_ge

end

/-- The two powers, and so the keys and the proofs, agree if and only if the order of 2 divides what the client's
    exponent lost; otherwise the keys can only be equal because the hash of the powers is. -/
theorem sessionKeys_agree_iff (hprime : p.Prime)
    (h : login sha (.new sha p 2) account salt password clientRandom serverRandom clientDraws serverDraws =
      some (client, server)) :
    let a := client.1.privateKey.toNat
    let b := server.1.privateKey.toNat
    let u := (getInt sha (stripped client.1.clientPublicKey ++ stripped client.1.serverPublicKey)).toNat
    let x := (getUserHash sha account salt password).toNat
    let harmless := orderOf (2 : ZMod p) ∣ b * ((a + u * x) / p)
    let secret := client.1.clientSessionSecret sha account salt password
    let secret' := server.1.serverSessionSecret
      (getBytes (RemoteGroup.computeVerifier sha (.new sha p 2) account salt password))
    (client.1.clientPublicKey, client.1.serverPublicKey, client.1.scramble) =
        (server.1.clientPublicKey, server.1.serverPublicKey, server.1.scramble) ∧
      (secret = secret' ↔ harmless) ∧
      (harmless → client.2 = server.2 ∧ ∀ digest, client.1.clientProof sha digest account salt client.2 =
        server.1.clientProof sha digest account salt server.2) ∧
      (client.2 = server.2 → harmless ∨
        stripped secret ≠ stripped secret' ∧ sha (stripped secret) = sha (stripped secret')) := by
  have hp : p ≠ 0 := hprime.ne_zero
  have : Fact p.Prime := ⟨hprime⟩
  obtain ⟨a, b, ha, hb, hkey, rfl, rfl⟩ := login_spec rfl hp h
  lift a to Nat using ha
  lift b to Nat using hb
  obtain ⟨x, hx⟩ : ∃ x : Nat, getUserHash sha account salt password = x :=
    Int.eq_ofNat_of_zero_le (assign_nonneg _)
  have hverifier := verifier_cast (k := (RemoteGroup.new sha p 2).k) hp hx
  generalize hB : RemoteGroup.serverKey _ _ (b : BigInteger) = B
  generalize hA : RemoteGroup.clientKey _ (a : BigInteger) = A at hkey ⊢
  obtain ⟨u, hu⟩ : ∃ u : Nat, getInt sha (stripped A ++ stripped B) = u :=
    Int.eq_ofNat_of_zero_le (assign_nonneg _)
  have hclient := clientSessionSecret_cast (a := a) (u := u) (A := A) hx hverifier hB.symm
  have hserver := serverSessionSecret_cast (b := b) (u := u) (B := B) hverifier hA.symm
  have hiff := pow_mod_prime_iff (two_ne_zero_of_clientKey hprime (hA ▸ hkey)) b (a + u * x)
  rw [← hclient, ← hserver] at hiff
  have hsecret := mod_eq_iff.trans hiff
  dsimp only [clientSessionKey, serverSessionKey, computeScramble]
  rw [hx, hu, Int.toNat_natCast, Int.toNat_natCast, Int.toNat_natCast, Int.toNat_natCast]
  refine ⟨rfl, hsecret, fun hdvd => ?_, fun heq => ?_⟩
  · have hkeys := congrArg (fun secret => sha (stripped secret)) (hsecret.mpr hdvd)
    exact ⟨hkeys, fun digest => congrArg (clientProof sha _ digest account salt) hkeys⟩
  · refine or_iff_not_imp_left.mpr fun hdvd => ⟨fun hstripped => hdvd (hsecret.mp ?_), heq⟩
    exact stripped_inj (mod_nonneg hp _) (mod_nonneg hp _) hstripped

theorem sessionKeys_agree_seven : ∃ client server, login id (.new id (7 : Nat) 2) [] [] [] [1] [3] [] [] =
    some (client, server) ∧ client.2 = server.2 := by
  have horder : orderOf (2 : ZMod 7) ∣ 3 := orderOf_dvd_of_pow_eq_one (by decide)
  have hrun : (login id (.new id (7 : Nat) 2) [] [] [] [1] [3] [] []).map (·.2.1.privateKey) = some 3 := by
    decide +kernel
  obtain ⟨⟨client, server⟩, h, hb⟩ := Option.map_eq_some_iff.mp hrun
  have hharmless : orderOf (2 : ZMod 7) ∣ server.1.privateKey.toNat := hb ▸ horder
  exact ⟨client, server, h, ((sessionKeys_agree_iff (by decide) h).2.2.1 (hharmless.mul_right _)).1⟩

/-- In the group of the prime 7 with the identity as the hash, both private keys 1. -/
theorem exponent_reduced_by_prime : (login id (.new id 7 2) [] [] [] (replicate 127 0 ++ [1]) (replicate 127 0 ++ [1])
    [] []).map (fun parties => decide (parties.1.2 = parties.2.2)) = some false := by
  decide +kernel

end RemotePassword

end Firebird.Auth
