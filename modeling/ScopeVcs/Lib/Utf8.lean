import ScopeVcs.Lib.Text

/-! # Texts and their bytes -/

namespace Text

/-- Different texts have different bytes. -/
theorem utf8_injective : Function.Injective utf8 := by
  intro s t h
  have hbytes : ∀ r : String, (utf8 r).toByteArray = r.toByteArray :=
    fun r => String.utf8Encode_toList
  rw [← String.toByteArray_inj, ← hbytes, h, hbytes]

/-- Only the character NUL has a zero among its bytes. -/
theorem zero_notMem_utf8EncodeChar {c : Char} (hc : c ≠ '\x00') :
    (0 : UInt8) ∉ String.utf8EncodeChar c := by
  have hpos : c.val.toNat ≠ 0 := by
    intro hzero
    exact hc (Char.ext (UInt32.toNat_inj.mp hzero))
  have hbyte : ∀ n : ℕ, n % 256 ≠ 0 → (0 : UInt8) ≠ UInt8.ofNat n := by
    intro n hn h
    have hnat := congrArg UInt8.toNat h
    rw [UInt8.toNat_ofNat'] at hnat
    exact hn hnat.symm
  unfold String.utf8EncodeChar
  dsimp only
  split_ifs <;> simp only [List.mem_cons, List.not_mem_nil, or_false, not_or]
  · exact hbyte _ (by omega)
  · exact ⟨hbyte _ (by omega), hbyte _ (by omega)⟩
  · exact ⟨hbyte _ (by omega), hbyte _ (by omega), hbyte _ (by omega)⟩
  · exact ⟨hbyte _ (by omega), hbyte _ (by omega), hbyte _ (by omega), hbyte _ (by omega)⟩

theorem zero_notMem_utf8 {s : String} (h : '\x00' ∉ s.toList) : (0 : UInt8) ∉ utf8 s := by
  intro hmem
  obtain ⟨c, hc, hzero⟩ := List.mem_flatMap.mp hmem
  exact zero_notMem_utf8EncodeChar (fun he => h (he ▸ hc)) hzero

end Text
