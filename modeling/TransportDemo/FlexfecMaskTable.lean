import TransportDemo.FlexfecParity

/-!
# Packet masks

A mask has a row of bits for each FEC packet and a column for each media
packet. For up to 12 media packets it is looked up in a table; beyond that,
FEC packet `r` of `n` protects the media packets whose place is `r` modulo `n`.
With unequal protection some of the rows are made for the important packets
only. In every mask each FEC packet protects something, and each media packet
is protected.
-/

namespace FlexfecMaskTable

open FlexfecPacket FlexfecEncoder FlexfecParity

/-! ### The tables for up to 12 media packets -/

def kPacketMaskBursty1 : List UInt8 :=
  [1,
    0x80, 0x00]

def kPacketMaskBursty2 : List UInt8 :=
  [2,
    0xc0, 0x00,
    0x80, 0x00, 0xc0, 0x00]

def kPacketMaskBursty3 : List UInt8 :=
  [3,
    0xe0, 0x00,
    0xc0, 0x00, 0xa0, 0x00,
    0x80, 0x00, 0xc0, 0x00, 0x60, 0x00]

def kPacketMaskBursty4 : List UInt8 :=
  [4,
    0xf0, 0x00,
    0xa0, 0x00, 0xd0, 0x00,
    0xc0, 0x00, 0x60, 0x00, 0x90, 0x00,
    0x80, 0x00, 0xc0, 0x00, 0x60, 0x00, 0x30, 0x00]

def kPacketMaskBursty5 : List UInt8 :=
  [5,
    0xf8, 0x00,
    0xd0, 0x00, 0xa8, 0x00,
    0x70, 0x00, 0x90, 0x00, 0xc8, 0x00,
    0xc0, 0x00, 0x60, 0x00, 0x30, 0x00, 0x88, 0x00,
    0x80, 0x00, 0xc0, 0x00, 0x60, 0x00, 0x30, 0x00, 0x18, 0x00]

def kPacketMaskBursty6 : List UInt8 :=
  [6,
    0xfc, 0x00,
    0xa8, 0x00, 0xd4, 0x00,
    0x94, 0x00, 0xc8, 0x00, 0x64, 0x00,
    0x60, 0x00, 0x38, 0x00, 0x88, 0x00, 0xc4, 0x00,
    0xc0, 0x00, 0x60, 0x00, 0x30, 0x00, 0x18, 0x00, 0x84, 0x00,
    0x80, 0x00, 0xc0, 0x00, 0x60, 0x00, 0x30, 0x00, 0x18, 0x00, 0x0c, 0x00]

def kPacketMaskBursty7 : List UInt8 :=
  [7,
    0xfe, 0x00,
    0xd4, 0x00, 0xaa, 0x00,
    0xc8, 0x00, 0x74, 0x00, 0x92, 0x00,
    0x38, 0x00, 0x8a, 0x00, 0xc4, 0x00, 0x62, 0x00,
    0x60, 0x00, 0x30, 0x00, 0x1c, 0x00, 0x84, 0x00, 0xc2, 0x00,
    0xc0, 0x00, 0x60, 0x00, 0x30, 0x00, 0x18, 0x00, 0x0c, 0x00, 0x82, 0x00,
    0x80, 0x00, 0xc0, 0x00, 0x60, 0x00, 0x30, 0x00, 0x18, 0x00, 0x0c, 0x00, 0x06, 0x00]

def kPacketMaskBursty8 : List UInt8 :=
  [8,
    0xff, 0x00,
    0xaa, 0x00, 0xd5, 0x00,
    0x74, 0x00, 0x92, 0x00, 0xc9, 0x00,
    0x8a, 0x00, 0xc5, 0x00, 0x62, 0x00, 0x31, 0x00,
    0x30, 0x00, 0x1c, 0x00, 0x85, 0x00, 0xc2, 0x00, 0x61, 0x00,
    0x60, 0x00, 0x30, 0x00, 0x18, 0x00, 0x0e, 0x00, 0x82, 0x00, 0xc1, 0x00,
    0xc0, 0x00, 0x60, 0x00, 0x30, 0x00, 0x18, 0x00, 0x0c, 0x00, 0x06, 0x00, 0x81, 0x00,
    0x80, 0x00, 0xc0, 0x00, 0x60, 0x00, 0x30, 0x00, 0x18, 0x00, 0x0c, 0x00, 0x06, 0x00, 0x03,
    0x00]

def kPacketMaskBursty9 : List UInt8 :=
  [9,
    0xff, 0x80,
    0xd5, 0x00, 0xaa, 0x80,
    0x92, 0x00, 0xc9, 0x00, 0x74, 0x80,
    0xc5, 0x00, 0x62, 0x00, 0x39, 0x00, 0x8a, 0x80,
    0x1c, 0x00, 0x85, 0x00, 0xc2, 0x80, 0x61, 0x00, 0x30, 0x80,
    0x30, 0x00, 0x18, 0x00, 0x0e, 0x00, 0x82, 0x80, 0xc1, 0x00, 0x60, 0x80,
    0x60, 0x00, 0x30, 0x00, 0x18, 0x00, 0x0c, 0x00, 0x07, 0x00, 0x81, 0x00, 0xc0, 0x80,
    0xc0, 0x00, 0x60, 0x00, 0x30, 0x00, 0x18, 0x00, 0x0c, 0x00, 0x06, 0x00, 0x03, 0x00, 0x80,
    0x80,
    0x80, 0x00, 0xc0, 0x00, 0x60, 0x00, 0x30, 0x00, 0x18, 0x00, 0x0c, 0x00, 0x06, 0x00, 0x03,
    0x00, 0x01, 0x80]

def kPacketMaskBursty10 : List UInt8 :=
  [10,
    0xff, 0xc0,
    0xaa, 0x80, 0xd5, 0x40,
    0xc9, 0x00, 0x74, 0x80, 0x92, 0x40,
    0x62, 0x00, 0x39, 0x00, 0x8a, 0x80, 0xc5, 0x40,
    0x85, 0x00, 0xc2, 0x80, 0x61, 0x40, 0x30, 0x80, 0x18, 0x40,
    0x18, 0x00, 0x0e, 0x00, 0x82, 0x80, 0xc1, 0x40, 0x60, 0x80, 0x30, 0x40,
    0x30, 0x00, 0x18, 0x00, 0x0c, 0x00, 0x07, 0x00, 0x81, 0x40, 0xc0, 0x80, 0x60, 0x40,
    0x60, 0x00, 0x30, 0x00, 0x18, 0x00, 0x0c, 0x00, 0x06, 0x00, 0x03, 0x00, 0x80, 0x80, 0xc0,
    0x40,
    0xc0, 0x00, 0x60, 0x00, 0x30, 0x00, 0x18, 0x00, 0x0c, 0x00, 0x06, 0x00, 0x03, 0x00, 0x01,
    0x80, 0x80, 0x40,
    0x80, 0x00, 0xc0, 0x00, 0x60, 0x00, 0x30, 0x00, 0x18, 0x00, 0x0c, 0x00, 0x06, 0x00, 0x03,
    0x00, 0x01, 0x80, 0x00, 0xc0]

def kPacketMaskBursty11 : List UInt8 :=
  [11,
    0xff, 0xe0,
    0xd5, 0x40, 0xaa, 0xa0,
    0x74, 0x80, 0x92, 0x40, 0xc9, 0x20,
    0x39, 0x00, 0x8a, 0x80, 0xc5, 0x40, 0x62, 0x20,
    0xc2, 0xc0, 0x61, 0x00, 0x30, 0xa0, 0x1c, 0x40, 0x85, 0x20,
    0x0e, 0x00, 0x82, 0x80, 0xc1, 0x40, 0x60, 0xa0, 0x30, 0x40, 0x18, 0x20,
    0x18, 0x00, 0x0c, 0x00, 0x07, 0x00, 0x81, 0x40, 0xc0, 0xa0, 0x60, 0x40, 0x30, 0x20,
    0x30, 0x00, 0x18, 0x00, 0x0c, 0x00, 0x06, 0x00, 0x03, 0x40, 0x80, 0xa0, 0xc0, 0x40, 0x60,
    0x20,
    0x60, 0x00, 0x30, 0x00, 0x18, 0x00, 0x0c, 0x00, 0x06, 0x00, 0x03, 0x00, 0x01, 0x80, 0x80,
    0x40, 0xc0, 0x20,
    0xc0, 0x00, 0x60, 0x00, 0x30, 0x00, 0x18, 0x00, 0x0c, 0x00, 0x06, 0x00, 0x03, 0x00, 0x01,
    0x80, 0x00, 0xc0, 0x80, 0x20,
    0x80, 0x00, 0xc0, 0x00, 0x60, 0x00, 0x30, 0x00, 0x18, 0x00, 0x0c, 0x00, 0x06, 0x00, 0x03,
    0x00, 0x01, 0x80, 0x00, 0xc0, 0x00, 0x60]

def kPacketMaskBursty12 : List UInt8 :=
  [12,
    0xff, 0xf0,
    0xaa, 0xa0, 0xd5, 0x50,
    0x92, 0x40, 0xc9, 0x20, 0x74, 0x90,
    0x8a, 0x80, 0xc5, 0x40, 0x62, 0x20, 0x39, 0x10,
    0x61, 0x00, 0x30, 0xa0, 0x1c, 0x50, 0x85, 0x20, 0xc2, 0x90,
    0x82, 0x90, 0xc1, 0x40, 0x60, 0xa0, 0x30, 0x50, 0x18, 0x20, 0x0c, 0x10,
    0x0c, 0x00, 0x07, 0x00, 0x81, 0x40, 0xc0, 0xa0, 0x60, 0x50, 0x30, 0x20, 0x18, 0x10,
    0x18, 0x00, 0x0c, 0x00, 0x06, 0x00, 0x03, 0x00, 0x80, 0xa0, 0xc0, 0x50, 0x60, 0x20, 0x30,
    0x10,
    0x30, 0x00, 0x18, 0x00, 0x0c, 0x00, 0x06, 0x00, 0x03, 0x00, 0x01, 0x80, 0x80, 0x50, 0xc0,
    0x20, 0x60, 0x10,
    0x60, 0x00, 0x30, 0x00, 0x18, 0x00, 0x0c, 0x00, 0x06, 0x00, 0x03, 0x00, 0x01, 0x80, 0x00,
    0xc0, 0x80, 0x20, 0xc0, 0x10,
    0xc0, 0x00, 0x60, 0x00, 0x30, 0x00, 0x18, 0x00, 0x0c, 0x00, 0x06, 0x00, 0x03, 0x00, 0x01,
    0x80, 0x00, 0xc0, 0x00, 0x60, 0x80, 0x10,
    0x80, 0x00, 0xc0, 0x00, 0x60, 0x00, 0x30, 0x00, 0x18, 0x00, 0x0c, 0x00, 0x06, 0x00, 0x03,
    0x00, 0x01, 0x80, 0x00, 0xc0, 0x00, 0x60, 0x00, 0x30]

def kPacketMaskBurstyTbl : List UInt8 :=
  12 :: (
    kPacketMaskBursty1 ++ kPacketMaskBursty2 ++ kPacketMaskBursty3 ++ kPacketMaskBursty4 ++
    kPacketMaskBursty5 ++ kPacketMaskBursty6 ++ kPacketMaskBursty7 ++ kPacketMaskBursty8 ++
    kPacketMaskBursty9 ++ kPacketMaskBursty10 ++ kPacketMaskBursty11 ++ kPacketMaskBursty12)

def kPacketMaskRandom1 : List UInt8 :=
  [1,
    0x80, 0x00]

def kPacketMaskRandom2 : List UInt8 :=
  [2,
    0xc0, 0x00,
    0xc0, 0x00, 0x80, 0x00]

def kPacketMaskRandom3 : List UInt8 :=
  [3,
    0xe0, 0x00,
    0xc0, 0x00, 0xa0, 0x00,
    0xc0, 0x00, 0xa0, 0x00, 0x60, 0x00]

def kPacketMaskRandom4 : List UInt8 :=
  [4,
    0xf0, 0x00,
    0xc0, 0x00, 0xb0, 0x00,
    0xc0, 0x00, 0xb0, 0x00, 0x60, 0x00,
    0xc0, 0x00, 0xa0, 0x00, 0x30, 0x00, 0x50, 0x00]

def kPacketMaskRandom5 : List UInt8 :=
  [5,
    0xf8, 0x00,
    0xa8, 0x00, 0xd0, 0x00,
    0xb0, 0x00, 0xc8, 0x00, 0x50, 0x00,
    0xc8, 0x00, 0xb0, 0x00, 0x50, 0x00, 0x28, 0x00,
    0xc0, 0x00, 0x30, 0x00, 0x18, 0x00, 0xa0, 0x00, 0x48, 0x00]

def kPacketMaskRandom6 : List UInt8 :=
  [6,
    0xfc, 0x00,
    0xa8, 0x00, 0xd4, 0x00,
    0xd0, 0x00, 0x68, 0x00, 0xa4, 0x00,
    0xa8, 0x00, 0x58, 0x00, 0x64, 0x00, 0x94, 0x00,
    0xa8, 0x00, 0x84, 0x00, 0x64, 0x00, 0x90, 0x00, 0x58, 0x00,
    0x98, 0x00, 0x64, 0x00, 0x50, 0x00, 0x14, 0x00, 0xa8, 0x00, 0xe0, 0x00]

def kPacketMaskRandom7 : List UInt8 :=
  [7,
    0xfe, 0x00,
    0xd4, 0x00, 0xaa, 0x00,
    0xd0, 0x00, 0xaa, 0x00, 0x64, 0x00,
    0xd0, 0x00, 0xaa, 0x00, 0x64, 0x00, 0x1c, 0x00,
    0x0c, 0x00, 0xb0, 0x00, 0x1a, 0x00, 0xc4, 0x00, 0x62, 0x00,
    0x8c, 0x00, 0x4a, 0x00, 0x64, 0x00, 0xd0, 0x00, 0xa0, 0x00, 0x32, 0x00,
    0x4a, 0x00, 0x94, 0x00, 0x1a, 0x00, 0xc4, 0x00, 0x28, 0x00, 0xc2, 0x00, 0x34, 0x00]

def kPacketMaskRandom8 : List UInt8 :=
  [8,
    0xff, 0x00,
    0xaa, 0x00, 0xd5, 0x00,
    0xc5, 0x00, 0x92, 0x00, 0x6a, 0x00,
    0x45, 0x00, 0xb4, 0x00, 0x6a, 0x00, 0x89, 0x00,
    0x8c, 0x00, 0x92, 0x00, 0x2b, 0x00, 0x51, 0x00, 0x64, 0x00,
    0xa1, 0x00, 0x52, 0x00, 0x91, 0x00, 0x2a, 0x00, 0xc4, 0x00, 0x4c, 0x00,
    0x15, 0x00, 0xc2, 0x00, 0x25, 0x00, 0x62, 0x00, 0x58, 0x00, 0x8c, 0x00, 0xa3, 0x00,
    0x25, 0x00, 0x8a, 0x00, 0x91, 0x00, 0x68, 0x00, 0x32, 0x00, 0x43, 0x00, 0xc4, 0x00, 0x1c,
    0x00]

def kPacketMaskRandom9 : List UInt8 :=
  [9,
    0xff, 0x80,
    0xaa, 0x80, 0xd5, 0x00,
    0xa5, 0x00, 0xc8, 0x00, 0x52, 0x80,
    0xa2, 0x00, 0xc9, 0x00, 0x52, 0x80, 0x24, 0x80,
    0x8c, 0x00, 0x25, 0x00, 0x92, 0x80, 0x41, 0x80, 0x58, 0x00,
    0x84, 0x80, 0x27, 0x00, 0x51, 0x80, 0x1a, 0x00, 0x68, 0x00, 0x89, 0x00,
    0x8c, 0x00, 0x47, 0x00, 0x81, 0x80, 0x12, 0x80, 0x58, 0x00, 0x28, 0x80, 0xb4, 0x00,
    0x2c, 0x00, 0x91, 0x00, 0x40, 0x80, 0x06, 0x80, 0xc8, 0x00, 0x45, 0x00, 0x30, 0x80, 0xa2,
    0x00,
    0x4c, 0x00, 0x62, 0x00, 0x91, 0x00, 0x42, 0x80, 0xa4, 0x00, 0x13, 0x00, 0x30, 0x80, 0x88,
    0x80, 0x09, 0x00]

def kPacketMaskRandom10 : List UInt8 :=
  [10,
    0xff, 0xc0,
    0xaa, 0x80, 0xd5, 0x40,
    0xa4, 0x40, 0xc9, 0x00, 0x52, 0x80,
    0xca, 0x00, 0x32, 0x80, 0xa1, 0x40, 0x55, 0x00,
    0xca, 0x00, 0x32, 0x80, 0xa1, 0x40, 0x55, 0x00, 0x08, 0xc0,
    0x0e, 0x00, 0x33, 0x00, 0x10, 0xc0, 0x45, 0x40, 0x88, 0x80, 0xe0, 0x00,
    0x46, 0x00, 0x33, 0x00, 0x80, 0xc0, 0x0c, 0x40, 0x28, 0x80, 0x94, 0x00, 0xc1, 0x00,
    0x2c, 0x00, 0x81, 0x80, 0xa0, 0x40, 0x05, 0x40, 0x18, 0x80, 0xc2, 0x00, 0x22, 0x80, 0x50,
    0x40,
    0x4c, 0x00, 0x23, 0x00, 0x88, 0xc0, 0x21, 0x40, 0x52, 0x80, 0x94, 0x00, 0x26, 0x00, 0x48,
    0x40, 0x91, 0x80,
    0x4c, 0x00, 0x51, 0x00, 0xa0, 0x40, 0x04, 0xc0, 0x03, 0x80, 0x86, 0x00, 0x29, 0x00, 0x42,
    0x40, 0x98, 0x00, 0x30, 0x80]

def kPacketMaskRandom11 : List UInt8 :=
  [11,
    0xff, 0xe0,
    0xec, 0xc0, 0x9b, 0xa0,
    0xca, 0xc0, 0xf1, 0x40, 0xb6, 0x20,
    0xc4, 0xc0, 0x31, 0x60, 0x4b, 0x20, 0x2c, 0xa0,
    0x86, 0x80, 0x23, 0x20, 0x16, 0x20, 0x4c, 0x20, 0x41, 0xc0,
    0x64, 0x40, 0x51, 0x40, 0x0c, 0xa0, 0xa1, 0x20, 0x12, 0xa0, 0x8a, 0x40,
    0x46, 0x40, 0x33, 0x20, 0x91, 0x80, 0xa4, 0x20, 0x50, 0xa0, 0x84, 0xc0, 0x09, 0x60,
    0x0c, 0x80, 0x80, 0x60, 0xa0, 0x80, 0x05, 0x40, 0x43, 0x00, 0x1a, 0x00, 0x60, 0x20, 0x14,
    0x20,
    0x46, 0x40, 0x62, 0x60, 0x8c, 0x00, 0x01, 0x60, 0x07, 0x80, 0xa0, 0x80, 0x18, 0xa0, 0x91,
    0x00, 0x78, 0x00,
    0x64, 0x40, 0x51, 0x40, 0xa9, 0x00, 0x04, 0xc0, 0xd0, 0x00, 0x82, 0x40, 0x21, 0x20, 0x0c,
    0x20, 0x4a, 0x00, 0x12, 0xa0,
    0x46, 0x40, 0x33, 0x20, 0x99, 0x00, 0x05, 0x80, 0x80, 0xa0, 0x84, 0x40, 0x40, 0x60, 0x0a,
    0x80, 0x68, 0x00, 0x10, 0x20, 0x30, 0x40]

def kPacketMaskRandom12 : List UInt8 :=
  [12,
    0xff, 0xf0,
    0xec, 0xc0, 0x93, 0xb0,
    0x9b, 0x80, 0x4f, 0x10, 0x3c, 0x60,
    0x8b, 0x20, 0x14, 0xb0, 0x22, 0xd0, 0x45, 0x50,
    0x53, 0x60, 0x64, 0x20, 0x0c, 0xc0, 0x82, 0xa0, 0x09, 0x30,
    0x51, 0x40, 0xc5, 0x10, 0x21, 0x80, 0x12, 0x30, 0x08, 0xe0, 0x2e, 0x00,
    0x53, 0x60, 0x21, 0x30, 0x90, 0x90, 0x02, 0x50, 0x06, 0xa0, 0x2c, 0x00, 0x88, 0x60,
    0x20, 0x60, 0x80, 0x30, 0x42, 0x40, 0x01, 0x90, 0x14, 0x10, 0x0a, 0x80, 0x38, 0x00, 0xc5,
    0x00,
    0x53, 0x60, 0xe4, 0x20, 0x24, 0x40, 0xa1, 0x10, 0x18, 0x30, 0x03, 0x90, 0x8a, 0x10, 0x04,
    0x90, 0x00, 0xe0,
    0x51, 0x40, 0x45, 0x10, 0x80, 0xd0, 0x24, 0x20, 0x0a, 0x20, 0x00, 0xe0, 0xb8, 0x00, 0x09,
    0x10, 0x56, 0x00, 0xa2, 0x80,
    0x53, 0x60, 0x21, 0x30, 0x10, 0x90, 0x00, 0x70, 0x0c, 0x10, 0x40, 0xc0, 0x6a, 0x00, 0x86,
    0x00, 0x24, 0x80, 0x89, 0x00, 0xc0, 0x20,
    0x10, 0x60, 0x02, 0x30, 0x40, 0x50, 0x21, 0x80, 0x81, 0x10, 0x14, 0x80, 0x98, 0x00, 0x08,
    0x90, 0x62, 0x00, 0x24, 0x20, 0x8a, 0x00, 0x84, 0x40]

def kPacketMaskRandomTbl : List UInt8 :=
  12 :: (
    kPacketMaskRandom1 ++ kPacketMaskRandom2 ++ kPacketMaskRandom3 ++ kPacketMaskRandom4 ++
    kPacketMaskRandom5 ++ kPacketMaskRandom6 ++ kPacketMaskRandom7 ++ kPacketMaskRandom8 ++
    kPacketMaskRandom9 ++ kPacketMaskRandom10 ++ kPacketMaskRandom11 ++ kPacketMaskRandom12)

/-! ### Looking masks up -/

/-- `FecMaskType`. -/
inductive FecMaskType where
  | random | bursty
  deriving DecidableEq

/-- 2 bytes for up to 16 packets, and 6 beyond. -/
def packetMaskSize (numSequenceNumbers : Nat) : Nat :=
  if 8 * 2 < numSequenceNumbers then 6 else 2

def pickTable (fecMaskType : FecMaskType) (numMediaPackets : Nat) : List UInt8 :=
  if fecMaskType ≠ .random ∧ numMediaPackets ≤ (kPacketMaskBurstyTbl.getD 0 0).toNat then
    kPacketMaskBurstyTbl
  else kPacketMaskRandomTbl

/-- Skips the data of the masks with 1 to `count` rows. -/
def skipData (entrySizeIncrement count entry : Nat) : Nat :=
  (List.range count).foldl (fun entry j => entry + entrySizeIncrement * (j + 1)) entry

/-- One round of the loop over the media packets: where the entry is, and its increment. -/
def hopOver (table : List UInt8) (at_ : Nat × Nat) (i : Nat) : Nat × Nat :=
  let increment := if i = 16 then 6 else at_.2
  (skipData increment (table.getD at_.1 0).toNat (at_.1 + 1), increment)

def lookUpInFecTable (table : List UInt8) (mediaPacketIndex fecIndex : Nat) : List UInt8 :=
  let (entry, increment) := (List.range mediaPacketIndex).foldl (hopOver table) (1, 2)
  let increment := if mediaPacketIndex = 16 then 6 else increment
  (table.drop (skipData increment fecIndex (entry + 1))).take (increment * (fecIndex + 1))

/-- One of the eight conditional bits of a byte. -/
def interleavedBit (numMediaPackets numFecPackets row idx : Nat) (bit : UInt8) : UInt8 :=
  if idx % numFecPackets = row ∧ idx < numMediaPackets then bit else 0

def interleavedByte (numMediaPackets numFecPackets row col : Nat) : UInt8 :=
  let bit (k : Nat) := interleavedBit numMediaPackets numFecPackets row (col * 8 + k)
  bit 0 0x80 ||| bit 1 0x40 ||| bit 2 0x20 ||| bit 3 0x10 |||
    bit 4 0x08 ||| bit 5 0x04 ||| bit 6 0x02 ||| bit 7 0x01

/-- `PacketMaskTable::LookUp`. -/
def lookUp (table : List UInt8) (numMediaPackets numFecPackets : Nat) : List UInt8 :=
  if numMediaPackets ≤ 12 then lookUpInFecTable table (numMediaPackets - 1) (numFecPackets - 1)
  else
    (List.range numFecPackets).flatMap fun row =>
      (List.range (packetMaskSize numMediaPackets)).map
        (interleavedByte numMediaPackets numFecPackets row)

/-! ### Making masks -/

/-- Row `i` is the `size` bytes from `i * size` on. -/
def rowsOf (size n : Nat) (bytes : List UInt8) : List (List UInt8) :=
  (List.range n).map fun i => (bytes.drop (i * size)).take size

/-- Each row of the input is copied to the start of a row of the output, from the first one on;
what the output has more of, in rows and in bytes, stays. -/
def fitSubMask (subMask packetMask : List (List UInt8)) : List (List UInt8) :=
  List.zipWith (fun sub row => sub ++ row.drop sub.length) subMask packetMask ++
    packetMask.drop subMask.length

def importantPacketProtection (numFecForImpPackets numImpPackets : Nat) (table : List UInt8)
    (packetMask : List (List UInt8)) : List (List UInt8) :=
  fitSubMask (rowsOf (packetMaskSize numImpPackets) numFecForImpPackets
    (lookUp table numImpPackets numFecForImpPackets)) packetMask

/-- In the mode `kModeOverlap`, the only one in use. -/
def remainingPacketProtection (numMediaPackets numFecRemaining numFecForImpPackets : Nat)
    (table : List UInt8) (packetMask : List (List UInt8)) : List (List UInt8) :=
  packetMask.take numFecForImpPackets ++
    fitSubMask (rowsOf (packetMaskSize numMediaPackets) numFecRemaining
      (lookUp table numMediaPackets numFecRemaining)) (packetMask.drop numFecForImpPackets)

/-- At most half of the FEC packets, rounded down, are for the important packets. -/
def setProtectionAllocation (numMediaPackets numFecPackets numImpPackets : Nat) : Nat :=
  let maxNumFecForImp := numFecPackets / 2
  let numFecForImpPackets :=
    if numImpPackets < maxNumFecForImp then numImpPackets else maxNumFecForImp
  if numFecPackets = 1 ∧ 2 * numImpPackets < numMediaPackets then 0 else numFecForImpPackets

def unequalProtectionMask (numMediaPackets numFecPackets numImpPackets : Nat)
    (table : List UInt8) (packetMask : List (List UInt8)) : List (List UInt8) :=
  let numFecForImpPackets :=
    setProtectionAllocation numMediaPackets numFecPackets numImpPackets
  let numFecRemaining := numFecPackets - numFecForImpPackets
  let packetMask :=
    if 0 < numFecForImpPackets then
      importantPacketProtection numFecForImpPackets numImpPackets table packetMask
    else packetMask
  if 0 < numFecRemaining then
    remainingPacketProtection numMediaPackets numFecRemaining numFecForImpPackets table packetMask
  else packetMask

/-- The rows are zero at the start. -/
def generatePacketMasks (numMediaPackets numFecPackets numImpPackets : Nat)
    (useUnequalProtection : Bool) (table : List UInt8) : List (List UInt8) :=
  let packetMask :=
    List.replicate numFecPackets (List.replicate (packetMaskSize numMediaPackets) 0)
  if !useUnequalProtection || numImpPackets = 0 then
    fitSubMask (rowsOf (packetMaskSize numMediaPackets) numFecPackets
      (lookUp table numMediaPackets numFecPackets)) packetMask
  else unequalProtectionMask numMediaPackets numFecPackets numImpPackets table packetMask

/-! ### Bits of a byte, from the highest -/

theorem maskBit_eq (x : UInt8) {j : Nat} (hj : j < 8) :
    maskBit x j = x.toBitVec.getLsbD (7 - j) := by
  interval_cases j <;> revert x <;> decide +kernel

theorem maskBit_or (x y : UInt8) {j : Nat} (hj : j < 8) :
    maskBit (x ||| y) j = (maskBit x j || maskBit y j) := by
  rw [maskBit_eq _ hj, maskBit_eq _ hj, maskBit_eq _ hj, UInt8.toBitVec_or, BitVec.getLsbD_or]

theorem maskBit_shiftLeft (x : UInt8) {k j : Nat} (hk : k < 8) (hj : j < 8) :
    maskBit (x <<< UInt8.ofNat k) j = (decide (j + k < 8) && maskBit x (j + k)) := by
  have hshift : ((UInt8.ofNat k).toBitVec % 8).toNat = k := by
    interval_cases k <;> rfl
  rw [maskBit_eq _ hj, UInt8.toBitVec_shiftLeft, BitVec.shiftLeft_eq', hshift,
    BitVec.getLsbD_shiftLeft]
  by_cases h : j + k < 8
  · rw [maskBit_eq _ h, show 7 - j - k = 7 - (j + k) by omega]
    simp [h]
    omega
  · simp [h]
    omega

theorem maskBit_zero (j : Nat) : maskBit 0 j = false := by
  rw [maskBit, UInt8.zero_and]
  rfl

theorem bitAt_zero {row : List UInt8} (h : ∀ b ∈ row, b = 0) (o : Nat) : bitAt row o = false := by
  rw [bitAt, List.getD_eq_getElem?_getD]
  cases hget : row[o / 8]? with
  | none => exact maskBit_zero _
  | some b =>
    rw [h b (List.mem_of_getElem? hget)]
    exact maskBit_zero _

theorem bitAt_append {row zeros : List UInt8} (h : ∀ b ∈ zeros, b = 0) (o : Nat) :
    bitAt (row ++ zeros) o = bitAt row o := by
  have hbyte : (row ++ zeros).getD (o / 8) 0 = row.getD (o / 8) 0 := by
    simp only [List.getD_eq_getElem?_getD]
    by_cases hin : o / 8 < row.length
    · rw [List.getElem?_append_left hin]
    · rw [List.getElem?_append_right (by omega), List.getElem?_eq_none (by omega : row.length ≤ o / 8)]
      cases hget : zeros[o / 8 - row.length]? with
      | none => rfl
      | some b => rw [h b (List.mem_of_getElem? hget), Option.getD_some, Option.getD_none]
  rw [bitAt, bitAt, hbyte]

/-! ### What a mask is good for -/

/-- Rows for `m` media packets: each protects some of them and nothing else. -/
structure Protecting (m : Nat) (rows : List (List UInt8)) : Prop where
  inside : ∀ row ∈ rows, ∀ o, bitAt row o = true → o < m
  protects : ∀ row ∈ rows, ∃ o, bitAt row o = true

/-- Each media packet is protected. -/
def Covers (m : Nat) (rows : List (List UInt8)) : Prop :=
  ∀ o < m, ∃ row ∈ rows, bitAt row o = true

theorem Protecting.mono {m m' : Nat} {rows : List (List UInt8)} (h : Protecting m rows)
    (hm : m ≤ m') : Protecting m' rows where
  inside row hrow o ho := Nat.lt_of_lt_of_le (h.inside row hrow o ho) hm
  protects := h.protects

theorem Protecting.append {m : Nat} {rows rows' : List (List UInt8)} (h : Protecting m rows)
    (h' : Protecting m rows') : Protecting m (rows ++ rows') where
  inside := List.forall_mem_append.mpr ⟨h.inside, h'.inside⟩
  protects := List.forall_mem_append.mpr ⟨h.protects, h'.protects⟩

/-- The check of a mask with rows of 2 bytes. -/
def checkRows (m : Nat) (rows : List (List UInt8)) : Bool :=
  (rows.all fun row => row.length == 2 && ((List.range 16).all fun o => !bitAt row o || o < m) &&
    (List.range 16).any (bitAt row)) &&
  (List.range m).all fun o => rows.any fun row => bitAt row o

def checkTable (table : List UInt8) : Bool :=
  (List.range 12).all fun i => (List.range (i + 1)).all fun j =>
    checkRows (i + 1) (rowsOf 2 (j + 1) (lookUpInFecTable table i j))

theorem checkTable_bursty : checkTable kPacketMaskBurstyTbl = true := by decide +kernel

theorem checkTable_random : checkTable kPacketMaskRandomTbl = true := by decide +kernel

theorem checkTable_pickTable (fecMaskType : FecMaskType) (m : Nat) :
    checkTable (pickTable fecMaskType m) = true := by
  rw [pickTable]
  split
  · exact checkTable_bursty
  · exact checkTable_random

theorem checkRows_sound {m : Nat} {rows : List (List UInt8)} (h : checkRows m rows = true) :
    (∀ row ∈ rows, row.length = 2) ∧ Protecting m rows ∧ Covers m rows := by
  rw [checkRows, Bool.and_eq_true, List.all_eq_true, List.all_eq_true] at h
  obtain ⟨hrows, hcovers⟩ := h
  have hrow (row : List UInt8) (hmem : row ∈ rows) : row.length = 2 ∧
      (∀ o < 16, bitAt row o = true → o < m) ∧ ∃ o, bitAt row o = true := by
    have hchecked := hrows row hmem
    simp only [Bool.and_eq_true, beq_iff_eq, List.all_eq_true, List.any_eq_true, List.mem_range,
      Bool.or_eq_true, Bool.not_eq_true', decide_eq_true_eq] at hchecked
    obtain ⟨⟨hlen, hinside⟩, o, -, ho⟩ := hchecked
    refine ⟨hlen, fun o ho hbit => ?_, o, ho⟩
    rcases hinside o ho with hclear | hlt
    · rw [hbit] at hclear
      cases hclear
    · exact hlt
  refine ⟨fun row hmem => (hrow row hmem).1, ⟨fun row hmem o hbit => ?_,
    fun row hmem => (hrow row hmem).2.2⟩, fun o ho => ?_⟩
  · obtain ⟨hlen, hinside, -⟩ := hrow row hmem
    by_contra hout
    refine hout (hinside o ?_ hbit)
    by_contra hbeyond
    rw [bitAt_beyond (by omega)] at hbit
    cases hbit
  · exact List.any_eq_true.mp (hcovers o (List.mem_range.mpr ho))

/-! ### The rows that are looked up -/

theorem length_rowsOf (size n : Nat) (bytes : List UInt8) : (rowsOf size n bytes).length = n := by
  simp [rowsOf]

theorem drop_take_flatten {α : Type} {size : Nat} {rows : List (List α)}
    (hrows : ∀ row ∈ rows, row.length = size) {i : Nat} (hi : i < rows.length) :
    (rows.flatten.drop (i * size)).take size = rows[i] := by
  induction rows generalizing i with
  | nil => cases hi
  | cons row rows ih =>
    obtain ⟨hrow, hrows⟩ := List.forall_mem_cons.mp hrows
    rw [List.flatten_cons]
    cases i with
    | zero => simp [← hrow]
    | succ i =>
      rw [Nat.succ_mul, Nat.add_comm, ← List.drop_drop, ← hrow, List.drop_left, hrow]
      exact ih hrows (Nat.lt_of_succ_lt_succ hi)

theorem rowsOf_flatMap {size n : Nat} {f : Nat → List UInt8} (hf : ∀ i, (f i).length = size) :
    rowsOf size n ((List.range n).flatMap f) = (List.range n).map f := by
  refine List.map_congr_left fun i hi => ?_
  have hi := List.mem_range.mp hi
  rw [List.flatMap_def, drop_take_flatten (by simpa using fun i _ => hf i) (by simpa using hi)]
  simp

theorem maskBit_interleavedBit {m n row idx k j : Nat} (hk : k < 8) (hj : j < 8) :
    maskBit (interleavedBit m n row idx (0x80 >>> UInt8.ofNat k)) j =
      (decide (j = k) && decide (idx % n = row ∧ idx < m)) := by
  rw [interleavedBit]
  split
  · next h =>
    rw [decide_eq_true h, Bool.and_true]
    interval_cases k <;> interval_cases j <;> rfl
  · next h => rw [decide_eq_false h, Bool.and_false, maskBit_zero]

theorem maskBit_interleavedByte (m n row col : Nat) {j : Nat} (hj : j < 8) :
    maskBit (interleavedByte m n row col) j =
      decide ((col * 8 + j) % n = row ∧ col * 8 + j < m) := by
  have hbit (k : Nat) (hk : k < 8) :
      maskBit (interleavedBit m n row (col * 8 + k) (0x80 >>> UInt8.ofNat k)) j =
        (decide (j = k) && decide ((col * 8 + k) % n = row ∧ col * 8 + k < m)) :=
    maskBit_interleavedBit hk hj
  have h0 : maskBit (interleavedBit m n row (col * 8 + 0) 0x80) j = _ := hbit 0 (by omega)
  have h1 : maskBit (interleavedBit m n row (col * 8 + 1) 0x40) j = _ := hbit 1 (by omega)
  have h2 : maskBit (interleavedBit m n row (col * 8 + 2) 0x20) j = _ := hbit 2 (by omega)
  have h3 : maskBit (interleavedBit m n row (col * 8 + 3) 0x10) j = _ := hbit 3 (by omega)
  have h4 : maskBit (interleavedBit m n row (col * 8 + 4) 0x08) j = _ := hbit 4 (by omega)
  have h5 : maskBit (interleavedBit m n row (col * 8 + 5) 0x04) j = _ := hbit 5 (by omega)
  have h6 : maskBit (interleavedBit m n row (col * 8 + 6) 0x02) j = _ := hbit 6 (by omega)
  have h7 : maskBit (interleavedBit m n row (col * 8 + 7) 0x01) j = _ := hbit 7 (by omega)
  simp only [interleavedByte, maskBit_or _ _ hj, h0, h1, h2, h3, h4, h5, h6, h7]
  interval_cases j <;> simp

/-- Bit `o` of row `r` is set if `o` is `r` modulo the number of rows. -/
theorem bitAt_interleaved {m n size r o : Nat} (hm : m ≤ 8 * size) :
    bitAt ((List.range size).map (interleavedByte m n r)) o = decide (o % n = r ∧ o < m) := by
  by_cases ho : o / 8 < size
  · have hbyte : ((List.range size).map (interleavedByte m n r)).getD (o / 8) 0 =
        interleavedByte m n r (o / 8) := by
      simp [List.getD_eq_getElem?_getD, ho]
    rw [bitAt, hbyte, maskBit_interleavedByte _ _ _ _ (Nat.mod_lt _ (by omega)),
      show o / 8 * 8 + o % 8 = o by omega]
  · rw [bitAt_beyond (by simp; omega), decide_eq_false (by omega)]

theorem le_packetMaskSize {m : Nat} (hm : m ≤ 48) : m ≤ 8 * packetMaskSize m := by
  rw [packetMaskSize]
  split <;> omega

/-- The rows that are looked up protect, and leave no media packet out. -/
theorem lookUp_spec (fecMaskType : FecMaskType) (k : Nat) {m n : Nat} (hn : 0 < n) (hnm : n ≤ m)
    (hm : m ≤ 48) {rows : List (List UInt8)}
    (hrows : rows = rowsOf (packetMaskSize m) n (lookUp (pickTable fecMaskType k) m n)) :
    (∀ row ∈ rows, row.length = packetMaskSize m) ∧ Protecting m rows ∧ Covers m rows := by
  subst hrows
  rw [lookUp]
  split
  · next hsmall =>
    have hchecked := checkTable_pickTable fecMaskType k
    simp only [checkTable, List.all_eq_true, List.mem_range] at hchecked
    have hentry := hchecked (m - 1) (by omega) (n - 1) (by omega)
    rw [Nat.sub_add_cancel (by omega), Nat.sub_add_cancel hn] at hentry
    have hsize : packetMaskSize m = 2 := if_neg (by omega)
    rw [hsize]
    exact checkRows_sound hentry
  · rw [rowsOf_flatMap (by simp)]
    have hbits (r o : Nat) := bitAt_interleaved (n := n) (r := r) (o := o) (le_packetMaskSize hm)
    refine ⟨?_, ⟨?_, ?_⟩, ?_⟩
    · intro row hrow
      obtain ⟨r, -, rfl⟩ := List.mem_map.mp hrow
      simp
    · intro row hrow o hbit
      obtain ⟨r, -, rfl⟩ := List.mem_map.mp hrow
      rw [hbits] at hbit
      exact (of_decide_eq_true hbit).2
    · intro row hrow
      obtain ⟨r, hr, rfl⟩ := List.mem_map.mp hrow
      have hr := List.mem_range.mp hr
      refine ⟨r, ?_⟩
      rw [hbits]
      exact decide_eq_true ⟨Nat.mod_eq_of_lt hr, by omega⟩
    · intro o ho
      refine ⟨_, List.mem_map_of_mem (List.mem_range.mpr (Nat.mod_lt o hn)), ?_⟩
      rw [hbits]
      exact decide_eq_true ⟨rfl, ho⟩

/-! ### The masks that are made -/

/-- A row filled up with zeros. -/
def padded (size : Nat) (row : List UInt8) : List UInt8 :=
  row ++ List.replicate (size - row.length) 0

theorem bitAt_padded (size : Nat) (row : List UInt8) : bitAt (padded size row) = bitAt row :=
  funext fun o => bitAt_append (fun _ hb => List.eq_of_mem_replicate hb) o

theorem length_padded {size : Nat} {row : List UInt8} (h : row.length ≤ size) :
    (padded size row).length = size := by
  rw [padded, List.length_append, List.length_replicate]
  omega

theorem map_padded {size : Nat} {rows : List (List UInt8)} (h : ∀ row ∈ rows, row.length = size) :
    rows.map (padded size) = rows := by
  refine (List.map_congr_left fun row hrow => ?_).trans (List.map_id rows)
  rw [padded, h row hrow, Nat.sub_self]
  exact List.append_nil row

theorem Protecting.padded {m size : Nat} {rows : List (List UInt8)} (h : Protecting m rows) :
    Protecting m (rows.map (padded size)) where
  inside row hrow o := by
    obtain ⟨sub, hsub, rfl⟩ := List.mem_map.mp hrow
    rw [bitAt_padded]
    exact h.inside sub hsub o
  protects row hrow := by
    obtain ⟨sub, hsub, rfl⟩ := List.mem_map.mp hrow
    rw [bitAt_padded]
    exact h.protects sub hsub

/-- Rows put where there are only zeros. -/
theorem fitSubMask_zeros {size n : Nat} {subMask : List (List UInt8)} (hn : subMask.length ≤ n) :
    fitSubMask subMask (List.replicate n (List.replicate size 0)) =
      subMask.map (padded size) ++
        List.replicate (n - subMask.length) (List.replicate size 0) := by
  have hzip : ∀ n, subMask.length ≤ n →
      List.zipWith (fun sub row => sub ++ row.drop sub.length) subMask
        (List.replicate n (List.replicate size (0 : UInt8))) = subMask.map (padded size) := by
    clear hn
    induction subMask with
    | nil => exact fun n _ => rfl
    | cons row subMask ih =>
      intro n hn
      cases n with
      | zero => simp at hn
      | succ n =>
        rw [List.replicate_succ, List.zipWith_cons_cons, List.drop_replicate, List.map_cons,
          ih n (Nat.le_of_succ_le_succ hn), FlexfecMaskTable.padded]
  rw [fitSubMask, hzip n hn, List.drop_replicate]

/-- All the rows of a mask of the right size put where there are only zeros. -/
theorem fitSubMask_all {size : Nat} {rows : List (List UInt8)}
    (h : ∀ row ∈ rows, row.length = size) :
    fitSubMask rows (List.replicate rows.length (List.replicate size 0)) = rows := by
  rw [fitSubMask_zeros (Nat.le_refl _), Nat.sub_self, map_padded h]
  exact List.append_nil rows

theorem setProtectionAllocation_le (m n imp : Nat) :
    setProtectionAllocation m n imp ≤ n / 2 ∧ setProtectionAllocation m n imp ≤ imp := by
  simp only [setProtectionAllocation]
  split
  · omega
  · split <;> omega

/-- What is looked up for all media packets comes last and leaves none out. -/
theorem generatePacketMasks_eq (fecMaskType : FecMaskType) (k : Nat) {m n imp : Nat} (hn : 0 < n)
    (hnm : n ≤ m) (hm : m ≤ 48) (himp : imp ≤ m) (useUnequalProtection : Bool) :
    ∃ t front, front.length = t ∧ t ≤ n / 2 ∧
      (∀ row ∈ front, row.length = packetMaskSize m) ∧ Protecting m front ∧
      generatePacketMasks m n imp useUnequalProtection (pickTable fecMaskType k) =
        front ++ rowsOf (packetMaskSize m) (n - t)
          (lookUp (pickTable fecMaskType k) m (n - t)) := by
  have hrest (t : Nat) (ht : t ≤ n / 2) :
      fitSubMask (rowsOf (packetMaskSize m) (n - t) (lookUp (pickTable fecMaskType k) m (n - t)))
          (List.replicate (n - t) (List.replicate (packetMaskSize m) 0)) =
        rowsOf (packetMaskSize m) (n - t) (lookUp (pickTable fecMaskType k) m (n - t)) := by
    have hsizes := (lookUp_spec fecMaskType k (show 0 < n - t by omega) (by omega) hm rfl).1
    have hall := fitSubMask_all hsizes
    rwa [length_rowsOf] at hall
  have hnone : Protecting m [] := ⟨List.forall_mem_nil _, List.forall_mem_nil _⟩
  rw [generatePacketMasks]
  split
  · exact ⟨0, [], rfl, Nat.zero_le _, List.forall_mem_nil _, hnone, hrest 0 (Nat.zero_le _)⟩
  · obtain ⟨hhalf, hfew⟩ := setProtectionAllocation_le m n imp
    simp only [unequalProtectionMask]
    generalize setProtectionAllocation m n imp = t at hhalf hfew
    rw [if_pos (show 0 < n - t by omega), remainingPacketProtection]
    split
    · next ht =>
      let front := rowsOf (packetMaskSize imp) t (lookUp (pickTable fecMaskType k) imp t)
      obtain ⟨hsizes, hprotecting, -⟩ :=
        lookUp_spec fecMaskType k ht hfew (Nat.le_trans himp hm) rfl
      have hsize : packetMaskSize imp ≤ packetMaskSize m := by
        simp only [packetMaskSize]
        split <;> split <;> omega
      have hlength : front.length = t := length_rowsOf _ _ _
      have hfront : importantPacketProtection t imp (pickTable fecMaskType k)
          (List.replicate n (List.replicate (packetMaskSize m) 0)) =
          front.map (padded (packetMaskSize m)) ++
            List.replicate (n - t) (List.replicate (packetMaskSize m) 0) := by
        rw [importantPacketProtection, fitSubMask_zeros (by rw [hlength]; omega), hlength]
      refine ⟨t, front.map (padded (packetMaskSize m)), by simp [hlength], hhalf, ?_,
        (hprotecting.mono himp).padded, ?_⟩
      · intro row hrow
        obtain ⟨sub, hsub, rfl⟩ := List.mem_map.mp hrow
        exact length_padded ((hsizes sub hsub).trans_le hsize)
      · rw [hfront, List.take_left' (by simp [hlength]), List.drop_left' (by simp [hlength]),
          hrest t hhalf]
    · next ht =>
      obtain rfl : t = 0 := by omega
      exact ⟨0, [], rfl, Nat.zero_le _, List.forall_mem_nil _, hnone, hrest 0 (Nat.zero_le _)⟩

/-- Each FEC packet gets a row that protects something, and no media packet is left out. -/
theorem generatePacketMasks_spec (fecMaskType : FecMaskType) (k : Nat) {m n imp : Nat}
    (hn : 0 < n) (hnm : n ≤ m) (hm : m ≤ 48) (himp : imp ≤ m) (useUnequalProtection : Bool)
    {rows : List (List UInt8)}
    (hrows : rows = generatePacketMasks m n imp useUnequalProtection (pickTable fecMaskType k)) :
    rows.length = n ∧ (∀ row ∈ rows, row.length = packetMaskSize m) ∧ Protecting m rows ∧
      Covers m rows := by
  obtain ⟨t, front, hlength, hhalf, hsizes, hprotecting, heq⟩ :=
    generatePacketMasks_eq fecMaskType k hn hnm hm himp useUnequalProtection
  rw [← hrows] at heq
  subst heq
  obtain ⟨hrestSizes, hrest, hcovers⟩ :=
    lookUp_spec fecMaskType k (show 0 < n - t by omega) (by omega) hm rfl
  refine ⟨?_, List.forall_mem_append.mpr ⟨hsizes, hrestSizes⟩, hprotecting.append hrest, ?_⟩
  · rw [List.length_append, hlength, length_rowsOf]
    omega
  · intro o ho
    obtain ⟨row, hrow, hbit⟩ := hcovers o ho
    exact ⟨row, List.mem_append_right _ hrow, hbit⟩

end FlexfecMaskTable
