/-!
# Words of 64 bits

The ranges of the integers that fit into 64 bits, without a sign and with one. Sizes, offsets and
the integers of JSON are held to them.
-/

namespace JsonCabinet.Word

/-- The greatest word without a sign. -/
def greatest : Nat := 0xFFFFFFFFFFFFFFFF

def greatestSigned : Int := 0x7FFFFFFFFFFFFFFF

def leastSigned : Int := -0x8000000000000000

end JsonCabinet.Word
