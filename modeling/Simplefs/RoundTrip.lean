import Simplefs.VariantFrame
import Simplefs.Mapping

/-! # Reading a variant back

`SetMultiLevel` encodes with zstd for `"zstd"`, with lz4 for `"lz4"` and `""`, and stores
the payload as it is for any other name; `Get` decodes with zstd for `"zstd"`, with lz4 for
`"lz4"`, returns `""`-configured files raw, and returns nil for any other name. Right after
a write, `Get` returns the second applied to the first.
-/
namespace Simplefs.Provider

/-- The compression names the code knows. -/
def knownMethods : List Bytes := [[], utf8 "lz4", utf8 "zstd"]

theorem compress_other {env : Env} {c v : Bytes} (hc : c ∉ knownMethods) : compress env c v = .ok v := by
  simp only [knownMethods, List.mem_cons, List.mem_singleton, not_or] at hc
  simp [compress, hc.1, hc.2.1, hc.2.2]

theorem decode_other {env : Env} {c b : Bytes} (hc : c ∉ knownMethods) : decode env c b = none := by
  simp only [knownMethods, List.mem_cons, List.mem_singleton, not_or] at hc
  simp [decode, hc.1, hc.2.1, hc.2.2]

theorem decode_compress_lz4 (env : Env) (v : Bytes) :
    (compress env (utf8 "lz4") v).toOption.bind (decode env (utf8 "lz4")) =
      (env.lz4Write v).toOption.bind fun b => (env.lz4Read b).toOption := by
  have h₁ : utf8 "lz4" ≠ utf8 "zstd" := by decide
  have h₂ : utf8 "lz4" ≠ [] := by decide
  simp [compress, decode, h₁, h₂]

/-- `Init` on an empty directory `/c`, no budget, payloads stored as they are under the
compression name `none`. -/
def plainStart : Provider := (factory (utf8 "/c") [] 0 (-1) (utf8 "none") 0 ∅ 0).init

def plainVariant : Variant := ⟨utf8 "b", utf8 "k", utf8 "a", [], [], 10000000000, []⟩

def plainWritten : Provider :=
  ((plainStart.setMultiLevel Env.reference 1 plainVariant).map (·.2)).getD plainStart

theorem plainStart_setMultiLevel :
    plainStart.setMultiLevel Env.reference 1 plainVariant = some (none, plainWritten) := rfl

theorem plainStart_sole : Sole plainStart plainVariant.variedKey (plainStart.joinedFP plainVariant.variedKey) :=
  fun _ _ h => by simp [plainStart, factory, init] at h

end Simplefs.Provider
