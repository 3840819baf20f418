import TransportDemo.FecInterleave
import TransportDemo.NackKept
import TransportDemo.NackRecent
import TransportDemo.NackUnwrap
import TransportDemo.NackPacing
import TransportDemo.ClosedLoop
import TransportDemo.RttEstimate
import TransportDemo.FecBounds
import TransportDemo.FecCollect
import TransportDemo.FlexfecSsrc
import TransportDemo.Flexfec85
import TransportDemo.FlexfecGenuine
import TransportDemo.RtpPacketFits
import TransportDemo.FlexfecWire
import TransportDemo.FlexfecMutable
import TransportDemo.FlexfecSaturated
import TransportDemo.NackLeak
import TransportDemo.NackCompact
import TransportDemo.FecOrder
import TransportDemo.FecCompletion
import TransportDemo.FecStored
import TransportDemo.ProcNetDev
