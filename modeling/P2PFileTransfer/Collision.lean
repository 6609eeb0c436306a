/-
**Two inputs with one hash.**

Chunks are told apart by their hashes, so the hashes of two chunks should differ.  When `shahash`
gives one hash for two inputs, the two inputs show how: at a place that can be found by hashing
them, the compression of `SHA1Guts` was met with two different arguments and gave one value.

Such inputs are known.  Two files of five blocks agree in the first three of them and differ in the
others, and leave the hash in the same state, so that they have one hash however they go on.

Main results:

* `P2P.sha1Hash_known` — **two files with one hash**, however they go on;
* `P2P.shahash_collides` — **two inputs with one hash make `SHA1Guts` collide.**
-/

import P2PFileTransfer.Sha1

set_option relaxedAutoImplicit false
set_option autoImplicit false

namespace P2P

/-! ### A known collision -/

section Known

open SecureHash (compress)

/-- The hash after several blocks. -/
def sha1Blocks (hash : Vector UInt32 5) (blocks : List (Vector UInt8 64)) :
    Except Fault (Vector UInt32 5) :=
  blocks.foldlM (fun hash block => (sha1Guts ⟨0, hash, 0, block⟩).map SHA1Context.hash) hash

/-- The compression of several blocks, as `SHA1Guts` computes it. -/
theorem sha1Blocks_eq (hash : Vector UInt32 5) (blocks : List (Vector UInt8 64)) :
    sha1Blocks hash blocks =
      .ok (hashOf ((blocks.map Vector.toList).foldl compress (registers hash))) := by
  induction blocks generalizing hash with
  | nil => exact congrArg Except.ok (hashOf_registers hash).symm
  | cons block blocks ih =>
      rw [sha1Blocks, List.foldlM_cons, sha1Guts_eq]
      exact (ih _).trans (by rw [registers_hashOf]; rfl)

/-- The first of the blocks that two known files begin with. -/
def knownHead₁ : Vector UInt8 64 :=
  ⟨(NetOrder.encode 32 0x255044462d312e330a25e2e3cfd30a0a0a312030206f626a0a3c3c2f57696474 ++
    NetOrder.encode 32 0x682032203020522f4865696768742033203020522f547970652034203020522f).toArray,
    by decide⟩

/-- The second of the blocks that two known files begin with. -/
def knownHead₂ : Vector UInt8 64 :=
  ⟨(NetOrder.encode 32 0x537562747970652035203020522f46696c7465722036203020522f436f6c6f72 ++
    NetOrder.encode 32 0x53706163652037203020522f4c656e6774682038203020522f42697473506572).toArray,
    by decide⟩

/-- The third of the blocks that two known files begin with. -/
def knownHead₃ : Vector UInt8 64 :=
  ⟨(NetOrder.encode 32 0x436f6d706f6e656e7420383e3e0a73747265616d0affd8fffe00245348412d31 ++
    NetOrder.encode 32 0x20697320646561642121212121852fec092339759c39b1a1c63c4c97e1fffe01).toArray,
    by decide⟩

/-- Where the first of them differs from the second. -/
def knownLeft₁ : Vector UInt8 64 :=
  ⟨(NetOrder.encode 32 0x7f46dc93a6b67e013b029aaa1db2560b45ca67d688c7f84b8c4c791fe02b3df6 ++
    NetOrder.encode 32 0x14f86db1690901c56b45c1530afedfb76038e972722fe7ad728f0e4904e046c2).toArray,
    by decide⟩

/-- Where it differs again. -/
def knownLeft₂ : Vector UInt8 64 :=
  ⟨(NetOrder.encode 32 0x30570fe9d41398abe12ef5bc942be33542a4802d98b5d70f2a332ec37fac3514 ++
    NetOrder.encode 32 0xe74ddc0f2cc1a874cd0c78305a21566461309789606bd0bf3f98cda8044629a1).toArray,
    by decide⟩

/-- Where the second of them differs from the first. -/
def knownRight₁ : Vector UInt8 64 :=
  ⟨(NetOrder.encode 32 0x7346dc9166b67e118f029ab621b2560ff9ca67cca8c7f85ba84c79030c2b3de2 ++
    NetOrder.encode 32 0x18f86db3a90901d5df45c14f26fedfb3dc38e96ac22fe7bd728f0e45bce046d2).toArray,
    by decide⟩

/-- Where it differs again. -/
def knownRight₂ : Vector UInt8 64 :=
  ⟨(NetOrder.encode 32 0x3c570feb141398bb552ef5a0a82be331fea48037b8b5d71f0e332edf93ac3500 ++
    NetOrder.encode 32 0xeb4ddc0decc1a864790c782c76215660dd309791d06bd0af3f98cda4bc4629b1).toArray,
    by decide⟩

/-- The hash after the blocks that the files have in common. -/
def knownHash : Vector UInt32 5 := #v[0x4ea96269, 0x7c876e26, 0x74d107f0, 0xfec67984, 0x14f5bf45]

/-- One evaluation for all seven blocks. -/
theorem sha1Blocks_known :
    sha1Blocks #v[0x67452301, 0xefcdab89, 0x98badcfe, 0x10325476, 0xc3d2e1f0]
        [knownHead₁, knownHead₂, knownHead₃] = .ok knownHash ∧
      sha1Blocks knownHash [knownLeft₁, knownLeft₂] =
        sha1Blocks knownHash [knownRight₁, knownRight₂] := by
  decide +kernel

/-- The bytes that one of the two files begins with. -/
def knownLeft : List UInt8 :=
  [knownHead₁.toList, knownHead₂.toList, knownHead₃.toList, knownLeft₁.toList,
    knownLeft₂.toList].flatten

/-- The bytes that the other one begins with. -/
def knownRight : List UInt8 :=
  [knownHead₁.toList, knownHead₂.toList, knownHead₃.toList, knownRight₁.toList,
    knownRight₂.toList].flatten

theorem known_ne : knownLeft ≠ knownRight := by
  intro heq
  have hbyte := congrArg (fun l : List UInt8 => l[192]?) heq
  revert hbyte
  decide +kernel

theorem length_known : knownLeft.length = 320 ∧ knownRight.length = 320 := by
  simp [knownLeft, knownRight]

/-- **Two files with one hash**, however they go on. -/
theorem sha1Hash_known (more : List UInt8) :
    sha1Hash (knownLeft ++ more) = sha1Hash (knownRight ++ more) := by
  have hlen : (knownLeft ++ more).length = (knownRight ++ more).length := by
    rw [List.length_append, List.length_append, length_known.1, length_known.2]
  have habsorb : ∀ l : List UInt8,
      IteratedHash.absorb 64 compress SecureHash.initial (knownLeft ++ l) =
        IteratedHash.absorb 64 compress SecureHash.initial (knownRight ++ l) := by
    intro l
    obtain ⟨hhead, htail⟩ := sha1Blocks_known
    rw [sha1Blocks_eq] at hhead
    rw [sha1Blocks_eq, sha1Blocks_eq] at htail
    have hhead' := congrArg registers (Except.ok.inj hhead)
    have htail' := congrArg registers (Except.ok.inj htail)
    have hinitial : SecureHash.initial =
        registers #v[0x67452301, 0xefcdab89, 0x98badcfe, 0x10325476, 0xc3d2e1f0] := rfl
    rw [knownLeft, knownRight, IteratedHash.absorb_flatten (by decide) _ (by simp),
      IteratedHash.absorb_flatten (by decide) _ (by simp)]
    simp only [registers_hashOf, List.map_cons, List.map_nil, List.foldl_cons, List.foldl_nil]
      at hhead' htail' ⊢
    rw [hinitial, hhead', htail']
  have hsha : SecureHash.sha1 (knownLeft ++ more) = SecureHash.sha1 (knownRight ++ more) := by
    rw [SecureHash.sha1, SecureHash.sha1, SecureHash.pad, SecureHash.pad, hlen, List.append_assoc,
      List.append_assoc]
    exact congrArg _ (habsorb _)
  exact Vector.toList_inj.1 hsha

end Known

/-! ### Two inputs with one hash -/

/-- **Two inputs with one hash make the compression collide**, at named blocks of the two padded
inputs. -/
theorem shahash_collides (sha sha' : SHA1Context) {str str' : List UInt8} {len len' : ℕ}
    (hlen : len ≤ str.length) (hint : len < 2 ^ 31) (hlen' : len' ≤ str'.length)
    (hint' : len' < 2 ^ 31) (hne : str.take len ≠ str'.take len')
    (h : shahash sha str len = shahash sha' str' len') :
    ∃ i j, IteratedHash.Collides 64 SecureHash.compress
      SecureHash.initial (SecureHash.pad (str.take len)) i
      SecureHash.initial (SecureHash.pad (str'.take len')) j := by
  rw [shahash_eq sha hlen hint, shahash_eq sha' hlen' hint'] at h
  have hbytes : SecureHash.sha1 (str.take len) = SecureHash.sha1 (str'.take len') :=
    congrArg Vector.toList (Except.ok.inj h)
  refine SecureHash.collides_of_sha1_eq ?_ ?_ hne hbytes
  · rw [List.length_take]
    omega
  · rw [List.length_take]
    omega

theorem shahash_collides_known : ∃ i j, IteratedHash.Collides 64 SecureHash.compress
    SecureHash.initial (SecureHash.pad (knownLeft.take 320)) i
    SecureHash.initial (SecureHash.pad (knownRight.take 320)) j := by
  have hl : knownLeft.take 320 = knownLeft := List.take_of_length_le length_known.1.le
  have hr : knownRight.take 320 = knownRight := List.take_of_length_le length_known.2.le
  have hknown := sha1Hash_known []
  rw [List.append_nil, List.append_nil] at hknown
  let sha : SHA1Context := ⟨0, #v[0, 0, 0, 0, 0], 0, Vector.replicate 64 0⟩
  refine shahash_collides sha sha length_known.1.ge (by decide) length_known.2.ge (by decide) ?_ ?_
  · rw [hl, hr]
    exact known_ne
  · rw [shahash_eq sha length_known.1.ge (by decide), shahash_eq sha length_known.2.ge (by decide),
      hl, hr, hknown]

end P2P
