import Mathlib.Algebra.Ring.Nat

/-!
# Build configuration

The macros that `CMakeLists.txt` passes to the library; the defaults are those of the build.
-/

namespace Highway

/-- The build options of the servlet library. -/
structure Config where
  /-- `HIW_MAX_HEADER_SIZE` -/
  maxHeaderSize : ℕ := 8192
  /-- `HIW_MAX_HEADERS_COUNT` -/
  maxHeadersCount : ℕ := 32
  /-- `HIW_WRITE_SERVER_HEADER` -/
  writeServerHeader : Bool := true
  /-- `HIW_WRITE_SERVER_VERSION` -/
  writeServerVersion : Bool := true
  /-- The sizes of the buffers are of type `int`. -/
  maxHeaderSize_lt : maxHeaderSize < 2 ^ 31 := by decide

/-- The default build. -/
def Config.default : Config := {}

end Highway
